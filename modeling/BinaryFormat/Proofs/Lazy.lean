import BinaryFormat.Proofs.Lazy.Resolve

/-!
# Lazy and eager parsing

A lazy structure or sequence parses wherever the eager one does, up to the same
position, and its members are forced to the same values.
-/

namespace BinaryFormat

namespace Codec

variable {defs : Definitions} {e : Engine} {ctx : Context} {m : Medium} {store : LazyStore}
  {fs : List Format} {row : Row} {slots : List Slot}

private theorem Ready.shaped {ctx' : Context} (h : Ready defs m fs row slots ctx') :
    Shaped m.pos fs row.full slots ∧ Caches slots row.full := by
  obtain ⟨-, first, second, parsed, skipped, rfl, rfl, scanned, -⟩ := h
  obtain ⟨done, left, rfl, marked, marked'⟩ := scanned.slots
  have all : SlotsAt m.pos (first ++ second) (parsed.parsed ++ unparsed skipped.sizes)
      (done ++ left) := by
    refine marked.append ?_
    rwa [Row.sum_parsed]
  have sizes : skipped.full.map (fun entry => entry.1.length) = skipped.sizes := by
    simp [Row.full, Row.sizes]
  have later := fits_unparsed skipped.full
  rw [sizes] at later
  have fits := (fits_parsed parsed).append later
  rw [← Row.full_append] at fits
  exact all.shaped fits

private theorem Ready.held {ctx' : Context} (h : Ready defs m fs row slots ctx')
    (store : LazyStore) :
    Held (store.add ⟨row.bytes, m.pos, ctx', slots, true⟩).2 store.entries.length row.bytes m.pos
      ctx' fs row.full where
  stored := ⟨slots, store.members?_add_self _, h.shaped.1⟩
  cached i w found := by
    rw [LazyStore.cached?_add_self] at found
    exact h.shaped.2 i w found

/-- A row that is found lazily is forced to its named values. -/
private theorem force_container (faithful : e.Faithful defs) {handle : Handle} {base : Nat}
    {ctx₀ : Context} (inRow : InRow defs [] [] fs row) (fresh : Fresh [] fs)
    (held : Held store handle row.bytes base ctx₀ fs row.full) (names : List String) :
    ∃ store', e.resolver.force (.lazyContainer handle names) store =
      .ok (.container (entriesOf fs row.values)) store' := by
  have stays := held
  obtain ⟨slots, stored, shaped⟩ := held.stored
  obtain ⟨store', forced⟩ := forceMembers_of_row faithful [] [] rfl rfl trivial
    inRow fresh shaped stays
  refine ⟨store', ?_⟩
  have got : (get : Lookup Failure LazyStore) store = .ok store store := rfl
  show Value.forceWith ⟨Lookup.resolve e.parse, e.forceMember⟩
    (.lazyContainer handle names) store = _
  rw [Value.forceWith, Run.bind_of_ok got, stored]
  exact Run.bind_eq_ok_iff.mpr ⟨_, _, forced, rfl⟩

private theorem force_list (faithful : e.Faithful defs) {handle : Handle} {base : Nat}
    {ctx₀ : Context}
    (inRow : InRow defs [] [] fs row) (fresh : Fresh [] fs)
    (held : Held store handle row.bytes base ctx₀ fs row.full) :
    ∃ store', e.resolver.force (.lazyList handle fs.length) store =
      .ok (.list row.values) store' := by
  obtain ⟨store', forced⟩ := forceElements_of_row faithful [] [] rfl rfl trivial
    inRow fresh held
  refine ⟨store', ?_⟩
  show Value.forceWith ⟨Lookup.resolve e.parse, e.forceMember⟩
    (.lazyList handle fs.length) store = _
  rw [Value.forceWith]
  exact Run.bind_eq_ok_iff.mpr ⟨_, _, forced, rfl⟩

/-! ## Eager structures and sequences -/

theorem unindexed_push (ctx : Context) : Record.unindexed (ctx.push []).innermost = [] := rfl

private theorem row_of_struct {overwrite : Bool} {path : Path} {v : Value} {s : State}
    (isLocal : LocalFields defs [] [] fs) (fresh : Fresh [] fs)
    (ran : (struct e (Format.parts e defs fs) overwrite).parse path ⟨.medium m, ctx, store⟩ =
      .ok v s) :
    ∃ (row : Row) (frame : Record Value), InRow defs [] [] fs row ∧ row.bytes <+: m.rest ∧
      v = .container frame ∧ Record.unindexed frame = entriesOf fs row.values ∧
      s = ⟨.medium (m.skip row.bytes.length), ctx, store⟩ := by
  obtain ⟨⟨_, frame⟩, s₁, framed, ran⟩ := Run.bind_eq_ok_iff.mp ran
  cases ran
  obtain ⟨s₂, inner, rfl, rfl⟩ := Run.ok_of_inFrame framed
  rw [parseFields_eq overwrite path _ 0 (isEmbedded_parts e isLocal)] at inner
  obtain ⟨values, s₃, members, last⟩ := Run.bind_eq_ok_iff.mp inner
  cases last
  obtain ⟨row, inRow, rfl, at_m, stream, stored, kept, shown⟩ :=
    row_of_parseMembers isLocal fresh trivial (unindexed_push ctx) members
  refine ⟨row, _, inRow, at_m, rfl, shown, ?_⟩
  rw [stream, stored, Context.pop_of_kept kept]

theorem struct_of_row (e : Engine) (overwrite : Bool) (path : Path) (ctx : Context)
    (store : LazyStore) (inRow : InRow defs [] [] fs row)
    (isLocal : LocalFields defs [] [] fs) (fresh : Fresh [] fs) (at_m : row.bytes <+: m.rest) :
    ∃ frame, (struct e (Format.parts e defs fs) overwrite).parse path ⟨.medium m, ctx, store⟩ =
        .ok (.container frame) ⟨.medium (m.skip row.bytes.length), ctx, store⟩ ∧
      Record.unindexed frame = entriesOf fs row.values := by
  obtain ⟨ctx', members, kept, shown⟩ := parseMembers_of_row (e := e) (i := 0) (m := m)
    (fun _ name => path.memberIf name) store inRow fresh trivial
    (unindexed_push ctx) at_m
  have inner : parseFields overwrite false path (Format.parts e defs fs)
      ⟨.medium m, ctx.push [], store⟩ =
        .ok () ⟨.medium (m.skip row.bytes.length), ctx', store⟩ := by
    rw [parseFields_eq overwrite path _ 0 (isEmbedded_parts e isLocal)]
    exact Run.bind_eq_ok_iff.mpr ⟨_, _, members, rfl⟩
  have framed := Run.inFrame_of_ok inner
  rw [Context.pop_of_kept kept] at framed
  exact ⟨ctx'.innermost, Run.bind_eq_ok_iff.mpr ⟨_, _, framed, rfl⟩, shown⟩

private theorem row_of_sequence {path : Path} {v : Value} {s : State}
    (isLocal : LocalFields defs [] [] fs) (fresh : Fresh [] fs)
    (ran : (sequence e (Format.parts e defs fs)).parse path ⟨.medium m, ctx, store⟩ = .ok v s) :
    ∃ row : Row, InRow defs [] [] fs row ∧ row.bytes <+: m.rest ∧ v = .list row.values ∧
      s = ⟨.medium (m.skip row.bytes.length), ctx, store⟩ := by
  obtain ⟨⟨values, frame⟩, s₁, framed, ran⟩ := Run.bind_eq_ok_iff.mp ran
  cases ran
  obtain ⟨s₂, inner, rfl, rfl⟩ := Run.ok_of_inFrame framed
  rw [parseItems_eq path] at inner
  obtain ⟨row, inRow, values, at_m, stream, stored, kept, -⟩ :=
    row_of_parseMembers isLocal fresh trivial (unindexed_push ctx) inner
  refine ⟨row, inRow, at_m, by rw [values], ?_⟩
  rw [stream, stored, Context.pop_of_kept kept]

/-! ## Lazy ones -/

private theorem Shaped.length_eq : ∀ {fs : List Format} {row : Gapped} {slots : List Slot}
    {offset : Nat},
    Shaped offset fs row slots → slots.length = fs.length
  | [], [], [], _, _ => rfl
  | _ :: _, _ :: _, _ :: _, _, h => congrArg (· + 1) h.2.length_eq

section Rows

variable {e' : Engine} (faithful : e.Faithful defs) (faithful' : e'.Faithful defs)
  (addressable : m.Addressable) (path : Path) (ctx : Context) (store : LazyStore)
    (inRow : InRow defs [] [] fs row)
  (isLocal : LocalFields defs [] [] fs) (fresh : Fresh [] fs) (at_m : row.bytes <+: m.rest)
include faithful faithful' addressable inRow isLocal fresh at_m

/-- A lazy structure parses every row, and is forced to its named values. -/
theorem lazyStruct_of_row :
    ∃ v store' store'', (lazyStruct e (Format.parts e defs fs)).parse path ⟨.medium m, ctx, store⟩ =
        .ok v ⟨.medium (m.skip row.bytes.length), ctx, store'⟩ ∧
      e'.resolver.force v store' = .ok (.container (entriesOf fs row.values)) store'' := by
  obtain ⟨slots, ctx', scanned, ready, kept⟩ := scan_of_row
    faithful addressable true path inRow isLocal fresh at_m (unindexed_push ctx) store
  have recorded := (scanRecord_eq_ok_iff scanned kept).mpr ⟨at_m.length_le, rfl, rfl, rfl⟩
  have bytes : m.rest.take row.bytes.length = row.bytes := (List.prefix_iff_eq_take.mp at_m).symm
  rw [bytes] at recorded
  obtain ⟨store'', forced⟩ :=
    force_container faithful' inRow fresh (ready.held store) (slots.filterMap Slot.name)
  exact ⟨_, _, store'', Run.bind_eq_ok_iff.mpr ⟨_, _, recorded, rfl⟩, forced⟩

private theorem lazySequence_of_row :
    ∃ v store' store'', (lazySequence e (Format.parts e defs fs)).parse path
        ⟨.medium m, ctx, store⟩ = .ok v ⟨.medium (m.skip row.bytes.length), ctx, store'⟩ ∧
      e'.resolver.force v store' = .ok (.list row.values) store'' := by
  obtain ⟨slots, ctx', scanned, ready, kept⟩ := scan_of_row
    faithful addressable false path inRow isLocal fresh at_m (unindexed_push ctx) store
  have recorded := (scanRecord_eq_ok_iff scanned kept).mpr ⟨at_m.length_le, rfl, rfl, rfl⟩
  have bytes : m.rest.take row.bytes.length = row.bytes := (List.prefix_iff_eq_take.mp at_m).symm
  rw [bytes] at recorded
  obtain ⟨store'', forced⟩ := force_list faithful' inRow fresh (ready.held store)
  rw [← ready.shaped.1.length_eq] at forced
  exact ⟨_, _, store'', Run.bind_eq_ok_iff.mpr ⟨_, _, recorded, rfl⟩, forced⟩

end Rows

end Codec

namespace Value

theorem same_of_visible {fs gs : Record Value} (h : Record.visible fs = Record.visible gs)
    (self : (container gs).same (container gs) = true) :
    (container fs).same (container gs) = true := by
  simp only [same, Bool.and_eq_true, within_iff, h, beq_self_eq_true, true_and] at self ⊢
  intro key v mem shown
  have visible : (key, v) ∈ Record.visible gs := by
    rw [← h]
    exact List.mem_filter.mpr ⟨mem, by rw [shown]; rfl⟩
  exact self key v (List.mem_filter.mp visible).1 shown

end Value

/-! ## Formats -/

namespace Format

open Codec (namesOf)

/-- Whatever a structure or a sequence of members with distinct public names parses, the lazy
variant parses up to the same position, and forcing its value succeeds and yields what the
eager one has parsed, however deep the members are nested. -/
theorem lazy_of_eager (defs : Definitions) (j n k : Nat) {fields : List Format}
    (reads : LocalFields [] [] fields) (distinct : (namesOf fields).Nodup)
    (shown : ∀ name ∈ namesOf fields, Record.isPrivate name = false) {m : Medium}
    (addressable : m.Addressable) (path : Path) (ctx : Context) (store : LazyStore) :
    (∀ overwrite c s,
      ((struct fields overwrite).codec (.level defs j) defs).parse path ⟨.medium m, ctx, store⟩ =
        .ok c s →
      ∃ v s' frame fs store', c = .container frame ∧
        ((lazyStruct fields).codec (.level defs (n + 1)) defs).parse path
          ⟨.medium m, ctx, store⟩ = .ok v s' ∧
        s'.stream = s.stream ∧
        (Engine.level defs (k + 1)).resolver.force v s'.store = .ok (.container fs) store' ∧
        Record.visible fs = Record.visible frame ∧
        (c.same c = true → (Value.container fs).same c = true)) ∧
    ∀ c s,
      ((sequence fields).codec (.level defs j) defs).parse path ⟨.medium m, ctx, store⟩ =
        .ok c s →
      ∃ v s' store', ((lazySequence fields).codec (.level defs (n + 1)) defs).parse path
          ⟨.medium m, ctx, store⟩ = .ok v s' ∧
        s'.stream = s.stream ∧
        (Engine.level defs (k + 1)).resolver.force v s'.store = .ok c store' := by
  have isLocal := local_fields defs reads
  have fresh : Codec.Fresh [] fields := ⟨distinct, shown⟩
  constructor
  · intro overwrite c s ran
    obtain ⟨row, frame, inRow, at_m, rfl, index, rfl⟩ := Codec.row_of_struct isLocal fresh ran
    obtain ⟨v, store', store'', parsed, forced⟩ := Codec.lazyStruct_of_row
      (Engine.faithful_level defs n) (Engine.faithful_level defs k) addressable path ctx store
      inRow isLocal fresh at_m
    have public' : Record.visible (Codec.entriesOf fields row.values) = Record.visible frame := by
      rw [← index, Record.visible_unindexed]
    exact ⟨v, _, frame, _, store'', rfl, parsed, rfl, forced, public',
      Value.same_of_visible public'⟩
  · intro c s ran
    obtain ⟨row, inRow, at_m, rfl, rfl⟩ := Codec.row_of_sequence isLocal fresh ran
    obtain ⟨v, store', store'', parsed, forced⟩ := Codec.lazySequence_of_row
      (Engine.faithful_level defs n) (Engine.faithful_level defs k) addressable path ctx store
      inRow isLocal fresh at_m
    exact ⟨v, _, store'', parsed, rfl, forced⟩

/-- A byte that nobody names between a number and so many bytes. -/
def countedFields : List Format :=
  [.named "n" (.unsigned 1 .big), .flag, .named "data" (.bytes (.field "n"))]

theorem local_countedFields : LocalFields [] [] countedFields :=
  ⟨trivial, trivial, ⟨by decide, ["n"], rfl, by decide⟩, trivial⟩

theorem lazy_of_eager_counted :
    ∃ c s v s' fs store', ((struct countedFields false).codec (.level [] 1) []).parse .this
        ⟨.medium ⟨.growing, [9, 2, 1, 5, 6], 1⟩, .ofParams [], .empty⟩ = .ok c s ∧
      s.stream.pos = 5 ∧
      ((lazyStruct countedFields).codec (.level [] 1) []).parse .this
        ⟨.medium ⟨.growing, [9, 2, 1, 5, 6], 1⟩, .ofParams [], .empty⟩ = .ok v s' ∧
      s'.stream = s.stream ∧
      (Engine.level [] 1).resolver.force v s'.store = .ok (.container fs) store' ∧
      Record.visible fs = [("n", .int 2), ("data", .bytes [5, 6])] := by
  obtain ⟨s, ran, pos⟩ : ∃ s, ((struct countedFields false).codec (.level [] 1) []).parse .this
      ⟨.medium ⟨.growing, [9, 2, 1, 5, 6], 1⟩, .ofParams [], .empty⟩ =
        .ok (.container [("n", .int 2), ("data", .bytes [5, 6])]) s ∧ s.stream.pos = 5 :=
    ⟨_, rfl, rfl⟩
  obtain ⟨v, s', frame, fs, store', same, parsed, stream, forced, visible, -⟩ :=
    (lazy_of_eager [] 1 0 0 local_countedFields (by decide) (by decide)
      (by unfold Medium.Addressable; decide) .this (.ofParams []) .empty).1 false _ s ran
  cases same
  exact ⟨_, s, v, s', fs, store', ran, pos, parsed, stream, forced, visible⟩

end Format

end BinaryFormat
