import BinaryFormat.Proofs.Lazy

/-!
# What forcing has verified

A member that resolves has been parsed from its bytes.  Forcing resolves the
members that have a name; if the others resolve as well, the members are a row,
and the eager structure parses them.
-/

namespace BinaryFormat

namespace Codec

variable {defs : Definitions} {e : Engine} {names : List String} {known : Record Value}
  {ctx : Context} {m : Medium} {store store' : LazyStore} {fs : List Format} {row : Gapped}
  {handle : Handle} {data : List UInt8} {base : Nat} {ctx₀ : Context}

private theorem stands_of_value (faithful : e.Faithful defs) {f : Format} {bytes tail : List UInt8}
    {w : Value} {i : Nat} {slots : List Slot} {slot : Slot} {offset : Nat} {cache : Option Value}
    (isLocal : Local [names] (fun e => f.codec e defs))
    (sized : Sized (fun e => f.codec e defs) names known bytes.length)
    (agrees : AgreesOn names known ctx) (eager : Value.EagerFields known)
    (here : IsSlot f offset cache slot) (room : data.length ≤ Value.maxSize)
    (there : (⟨.snapshot base, data, offset⟩ : Medium).rest = bytes ++ tail)
    (uncached : store.cached? handle i = none)
    (ran : Members.value e.parse handle ⟨data, base, ctx₀, slots, true⟩ i slot ctx store =
      .ok w store') :
    Stands (fun e => f.codec e defs) names known bytes w ∧ store' = store.remember handle i w := by
  obtain ⟨inner, means⟩ := faithful.parse
  rw [value_of_uncached uncached] at ran
  obtain ⟨v, store₁, parsed, ran⟩ := Run.bind_eq_ok_iff.mp ran
  cases ran
  obtain ⟨s, parsing, rfl⟩ := (slot_parse_eq_ok_iff here.index).mp parsed
  rw [here.format, here.offset, means] at parsing
  obtain ⟨n, notes, rfl, short, -, stands, size⟩ :=
    isLocal.stands (c := fun e => f.codec e defs) agrees eager parsing
  obtain rfl := size (short.trans ((Medium.length_rest_le _).trans room)) bytes.length
    (sized ctx (shows_of_agreesOn agrees eager))
  rw [there, List.take_left] at stands
  exact ⟨stands, rfl⟩

/-! ## Members that are due -/

/-- The first members are a row, and nothing but their sizes is known of the others. -/
def Due (defs : Definitions) (names : List String) (known : Record Value) (fs : List Format)
    (row : Gapped) : Prop :=
  ∃ first second parsed blanks, fs = first ++ second ∧ row = Row.full parsed ++ blanks ∧
    (∀ entry ∈ blanks, entry.2 = none) ∧ InRow defs names known first parsed ∧
    InSizes defs (known ++ entriesOf first parsed.values) (namesAfter names first) second
      (blanks.map fun entry => entry.1.length)

private theorem InSizes.more : ∀ {fs : List Format} {sizes : List Nat} {names : List String},
    InSizes defs known names fs sizes → ∀ more, InSizes defs (known ++ more) names fs sizes
  | [], [], _, _, _ => trivial
  | _ :: _, _ :: _, _, ⟨here, later⟩, more => ⟨here.append more, later.more more⟩

private theorem Due.cases {f : Format} {bytes : List UInt8} {value? : Option Value}
    (h : Due defs names known (f :: fs) ((bytes, value?) :: row)) :
    (∃ v, value? = some v ∧ Stands (fun e => f.codec e defs) names known bytes v ∧
      Due defs (f.name?.toList ++ names) (known ++ entryOf f.name? v) fs row) ∨
    (value? = none ∧ Sized (fun e => f.codec e defs) names known bytes.length ∧
      ∀ more, Due defs (f.name?.toList ++ names) (known ++ more) fs row) := by
  obtain ⟨first, second, parsed, blanks, eq, eq', blank, inRow, sizes⟩ := h
  cases parsed with
  | nil =>
      right
      cases first with
      | cons => exact inRow.elim
      | nil =>
          have eq : f :: fs = second := eq
          have eq' : (bytes, value?) :: row = blanks := eq'
          subst eq eq'
          have nothing : known ++ entriesOf [] (Row.values []) = known := List.append_nil known
          rw [nothing] at sizes
          refine ⟨blank _ List.mem_cons_self, sizes.1, fun more => ⟨[], fs, [], row, rfl, rfl,
            fun entry mem => blank entry (List.mem_cons_of_mem _ mem), trivial, ?_⟩⟩
          have later := sizes.2.more (more ++ entriesOf [] (Row.values []))
          rwa [← List.append_assoc] at later
  | cons entry parsed =>
      left
      obtain ⟨data, v⟩ := entry
      cases first with
      | nil => exact inRow.elim
      | cons g first =>
          cases eq
          cases eq'
          refine ⟨v, rfl, inRow.1, first, second, parsed, blanks, rfl, rfl, blank, inRow.2, ?_⟩
          rwa [List.append_assoc]

/-- Bytes cut into pieces of these sizes, of which nothing else is known. -/
def cut : List Nat → List UInt8 → Gapped
  | [], _ => []
  | n :: sizes, data => (data.take n, none) :: cut sizes (data.drop n)

private theorem bytes_cut : ∀ (sizes : List Nat) (data : List UInt8),
    (cut sizes data).bytes = data.take sizes.sum
  | [], _ => rfl
  | n :: sizes, data => by
      rw [cut, Gapped.bytes_cons, bytes_cut, List.sum_cons, List.take_add]

private theorem lengths_cut : ∀ {sizes : List Nat} {data : List UInt8}, sizes.sum ≤ data.length →
    ((cut sizes data).map fun entry => entry.1.length) = sizes
  | [], _, _ => rfl
  | n :: sizes, data, h => by
      rw [List.sum_cons] at h
      have later : sizes.sum ≤ (data.drop n).length := by
        rw [List.length_drop]
        omega
      have here : (data.take n).length = n := by
        rw [List.length_take]
        omega
      rw [cut, List.map_cons, lengths_cut later, here]

private theorem blank_cut : ∀ {sizes : List Nat} {data : List UInt8}
    {entry : List UInt8 × Option Value},
    entry ∈ cut sizes data → entry.2 = none
  | _ :: _, _, _, mem => by
      rcases List.mem_cons.mp mem with rfl | mem
      · rfl
      · exact blank_cut mem

private theorem Skimmed.due {sizes : List Nat} {slots : List Slot}
    (h : Skimmed defs m fs sizes slots ctx)
    (short : sizes.sum ≤ m.rest.length) :
    ∃ row : Gapped, row.bytes = m.rest.take sizes.sum ∧ Due defs [] [] fs row ∧
      Shaped m.pos fs row slots ∧ Caches slots row := by
  obtain ⟨first, second, parsed, skipped, rfl, rfl, scanned, sized⟩ := h
  obtain ⟨inRow, ⟨rest, front⟩, ⟨done, left, rfl, marked, marked'⟩, -⟩ := scanned
  rw [List.sum_append, Row.sum_sizes] at short ⊢
  have behind : skipped.sum ≤ rest.length := by
    rw [← front, List.length_append] at short
    omega
  have lengths := lengths_cut behind
  have all : SlotsAt m.pos (first ++ second) (parsed.parsed ++ unparsed skipped)
    (done ++ left) := by
    refine marked.append ?_
    rwa [Row.sum_parsed]
  have fits := (fits_parsed parsed).append (fits_unparsed (cut skipped rest))
  rw [lengths] at fits
  refine ⟨parsed.full ++ cut skipped rest, ?_, ⟨first, second, parsed, cut skipped rest, rfl, rfl,
    fun entry mem => blank_cut mem, inRow, ?_⟩, all.shaped fits⟩
  · rw [Gapped.bytes_append, Row.bytes_full, bytes_cut, ← front, List.take_length_add_append]
  · rwa [lengths]

/-! ## Forcing -/

private theorem Told.snoc : ∀ {before : List Format} {part : Gapped} {names : List String}
    {known : Record Value}, Told defs names known before part → ∀ {f : Format} {bytes : List UInt8}
    {value? : Option Value},
      (∀ v, value? = some v → Stands (fun e => f.codec e defs) (namesAfter names before)
        (known ++ notedOf before part) bytes v) →
      (value? = none → f.name? = none ∧ Sized (fun e => f.codec e defs) (namesAfter names before)
        (known ++ notedOf before part) bytes.length) →
      Told defs names known (before ++ [f]) (part ++ [(bytes, value?)])
  | [], [], names, known, _, f, bytes, value?, stands, blank => by
      have nothing : known ++ notedOf [] [] = known := List.append_nil known
      rw [nothing] at stands blank
      exact ⟨stands, blank, trivial⟩
  | g :: before, (_, other?) :: part, names, known, ⟨here, here', later⟩, f, bytes, value?, stands,
      blank => by
      rw [notedOf, ← List.append_assoc] at stands blank
      exact ⟨here, here', later.snoc stands blank⟩

private theorem Shaped.know : ∀ {gs : List Format} {part rest : Gapped} {slots : List Slot}
    {offset : Nat}
    {bytes : List UInt8} {v w : Option Value}, Shaped offset gs (part ++ (bytes, v) :: rest) slots →
      Shaped offset gs (part ++ (bytes, w) :: rest) slots
  | [], [], _, _, _, _, _, _, h => h.elim
  | [], _ :: _, _, _, _, _, _, _, h => h.elim
  | _ :: _, [], _, _ :: _, _, _, _, _, h => h
  | _ :: _, _ :: _, _, _ :: _, _, _, _, _, ⟨here, later⟩ => ⟨here, later.know⟩

private theorem Held.know {part rest : Gapped} {bytes : List UInt8} {w : Value}
    (h : Held store handle data base ctx₀ fs (part ++ (bytes, none) :: rest)) :
    Held store handle data base ctx₀ fs (part ++ (bytes, some w) :: rest) := by
  obtain ⟨⟨slots, stored, shaped⟩, caches⟩ := h
  refine ⟨⟨slots, stored, shaped.know⟩, fun i v found => ?_⟩
  have known := caches i v found
  by_cases low : i < part.length
  · rwa [List.getElem?_append_left low] at known ⊢
  · rw [List.getElem?_append_right (Nat.le_of_not_lt low)] at known ⊢
    cases gap : i - part.length with
    | zero =>
        rw [gap] at known
        cases known
    | succ j =>
        rw [gap] at known
        exact known

/-- A member that resolves stands for its value. -/
private theorem stands_of_resolve (faithful : e.Faithful defs) {before after : List Format}
    {f : Format}
    {part rest : Gapped} {bytes : List UInt8} {w : Value}
    (held : Held store handle (part ++ (bytes, none) :: rest).bytes base ctx₀
      (before ++ f :: after) (part ++ (bytes, none) :: rest))
    (room : (part ++ (bytes, none) :: rest).bytes.length ≤ Value.maxSize)
    (told : Told defs [] [] before part) (fresh : Fresh [] (before ++ f :: after))
    (isLocal : Local [namesAfter [] before] (fun e => f.codec e defs))
    (sized :
      Sized (fun e => f.codec e defs) (namesAfter [] before) (notedOf before part) bytes.length)
    (ran : Lookup.resolve e.parse handle before.length store = .ok w store') :
    Stands (fun e => f.codec e defs) (namesAfter [] before) (notedOf before part) bytes w ∧
      Held store' handle (part ++ (bytes, some w) :: rest).bytes base ctx₀ (before ++ f :: after)
        (part ++ (bytes, some w) :: rest) := by
  have blank : (part ++ (bytes, none) :: rest)[before.length]?.bind Prod.snd = none := by
    rw [told.length_eq, List.getElem?_append_right (Nat.le_refl _), Nat.sub_self]
    rfl
  -- Nothing is known of the member, so resolving it parses it from its bytes.
  have uncached {store : LazyStore} (held : Held store handle
      (part ++ (bytes, none) :: rest).bytes base ctx₀ (before ++ f :: after)
      (part ++ (bytes, none) :: rest)) : store.cached? handle before.length = none := by
    cases cached : store.cached? handle before.length with
    | none => rfl
    | some w =>
        have known := held.cached _ _ cached
        rw [blank] at known
        cases known
  obtain ⟨slots, slot, cache, ctx', store₁, resolved, here, held', agrees⟩ :=
    resolve_eq_value faithful held told fresh
      (by rw [Gapped.bytes_append]; exact List.prefix_append _ _) (uncached held)
  rw [resolved] at ran
  have there : (⟨.snapshot base, (part ++ (bytes, none) :: rest).bytes,
      base + part.bytes.length⟩ : Medium).rest = bytes ++ Gapped.bytes rest := by
    rw [Gapped.bytes_append, Gapped.bytes_cons, rest_of_snapshot]
  obtain ⟨parsed, rfl⟩ := stands_of_value faithful isLocal sized agrees told.eager here room
    there (uncached held') ran
  have same : (part ++ (bytes, none) :: rest).bytes = (part ++ (bytes, some w) :: rest).bytes := by
    rw [Gapped.bytes_append, Gapped.bytes_append, Gapped.bytes_cons, Gapped.bytes_cons]
  refine ⟨parsed, ?_⟩
  rw [same] at held'
  refine held'.know.memo ?_
  rw [told.length_eq, List.getElem?_append_right (Nat.le_refl _), Nat.sub_self]
  rfl

private theorem notedOf_snoc {before : List Format} {part : Gapped}
    (h : Told defs names known before part)
    (f : Format) (bytes : List UInt8) (value? : Option Value) :
    notedOf (before ++ [f]) (part ++ [(bytes, value?)]) =
      notedOf before part ++ entered f.name? value? := by
  have joined : ∀ {gs : List Format} {row : Gapped}, gs.length = row.length →
      notedOf (gs ++ [f]) (row ++ [(bytes, value?)]) =
        notedOf gs row ++ entered f.name? value? := by
    intro gs
    induction gs with
    | nil =>
        intro row length
        cases row with
        | nil => exact List.append_nil _
        | cons => cases length
    | cons g gs ih =>
        intro row length
        cases row with
        | nil => cases length
        | cons entry row =>
            simp only [List.cons_append, notedOf, ih (Nat.succ.inj length), List.append_assoc]
  exact joined h.length_eq

/-- Once the named members are forced, all of them stand for their values. -/
private theorem told_of_forceMembers (faithful : e.Faithful defs) {r : Resolver}
    (resolves : r.resolve = Lookup.resolve e.parse)
    (forces : ∀ v : Value, v.Eager → r.force v = pure v) : ∀ {after : List Format}
    (before : List Format) (part : Gapped) {rest : Gapped} {slots : List Slot} {offset : Nat}
    {done result : Record Value}
    {store store' : LazyStore}, LocalFields defs [] [] (before ++ after) →
      Fresh [] (before ++ after) → Told defs [] [] before part →
      Due defs (namesAfter [] before) (notedOf before part) after rest →
      Shaped offset after rest slots →
      Held store handle (part ++ rest).bytes base ctx₀ (before ++ after) (part ++ rest) →
      (part ++ rest).bytes.length ≤ Value.maxSize →
      Value.forceMembers r handle slots before.length done store = .ok result store' →
        ∃ full : Gapped, full.bytes = (part ++ rest).bytes ∧
          Told defs [] [] (before ++ after) full ∧
          Held store' handle full.bytes base ctx₀ (before ++ after) full
  | [], before, part, [], [], _, _, _, store, _, _, _, told, _, _, held, _, ran => by
      cases ran
      rw [List.append_nil] at held ⊢
      rw [List.append_nil] at held ⊢
      exact ⟨part, rfl, told, held⟩
  | f :: after, before, part, (bytes, value?) :: rest, slot :: slots, offset, done, result, store,
      store', isLocal, fresh, told, due, ⟨⟨cache, here⟩, shaped⟩, held, room, ran => by
      obtain ⟨-, isLocal_f, -⟩ := (localFields_append.mp isLocal).2
      -- What is known of the member by the time that the members behind it are forced.
      obtain ⟨value', done', store₁, told', due', held', ran'⟩ : ∃ value' done' store₁,
          Told defs [] [] (before ++ [f]) (part ++ [(bytes, value')]) ∧
          Due defs (namesAfter [] (before ++ [f]))
            (notedOf (before ++ [f]) (part ++ [(bytes, value')]))
            after rest ∧
          Held store₁ handle (part ++ (bytes, value') :: rest).bytes base ctx₀
            (before ++ f :: after)
            (part ++ (bytes, value') :: rest) ∧
          Value.forceMembers r handle slots (before.length + 1) done' store₁ =
            .ok result store' := by
        rw [Value.forceMembers, here.name] at ran
        rw [namesAfter_snoc]
        rcases due.cases with ⟨v, rfl, stands, due⟩ | ⟨rfl, sized, due⟩
        · have told' : Told defs [] [] (before ++ [f]) (part ++ [(bytes, some v)]) :=
            told.snoc (fun w same => by cases same; exact stands) (fun none => by cases none)
          have due' : Due defs (f.name?.toList ++ namesAfter [] before)
              (notedOf (before ++ [f]) (part ++ [(bytes, some v)])) after rest := by
            rwa [notedOf_snoc told, entered_some]
          cases named : f.name? with
          | none =>
              rw [named] at ran due'
              exact ⟨some v, done, store, told', due', held, ran⟩
          | some name =>
              obtain ⟨store₁, resolved, held'⟩ := resolve_of_told faithful held told stands fresh
              rw [named] at ran due'
              dsimp only at ran
              rw [resolves, Run.bind_of_ok resolved, forces v stands.1, pure_bind] at ran
              exact ⟨some v, _, store₁, told', due', held', ran⟩
        · cases named : f.name? with
          | none =>
              have told' : Told defs [] [] (before ++ [f]) (part ++ [(bytes, none)]) :=
                told.snoc (fun w same => by cases same) (fun _ => ⟨named, sized⟩)
              rw [named] at ran due
              refine ⟨none, done, store, told', ?_, held, ran⟩
              rw [notedOf_snoc told]
              exact due _
          | some name =>
              rw [named] at ran
              dsimp only at ran
              rw [resolves] at ran
              obtain ⟨w, store₁, resolved, ran⟩ := Run.bind_eq_ok_iff.mp ran
              obtain ⟨stands, held'⟩ :=
                stands_of_resolve faithful held room told fresh isLocal_f sized resolved
              rw [forces w stands.1, pure_bind] at ran
              refine ⟨some w, _, store₁, told.snoc (fun v same => by cases same; exact stands)
                (fun none => by cases none), ?_, held', ran⟩
              rw [notedOf_snoc told, ← named]
              exact due _
      have same : Gapped.bytes (part ++ (bytes, value?) :: rest) =
          Gapped.bytes (part ++ (bytes, value') :: rest) := by
        rw [Gapped.bytes_append, Gapped.bytes_append, Gapped.bytes_cons, Gapped.bytes_cons]
      rw [same] at room ⊢
      rw [List.append_cons part (bytes, value') rest] at room
      rw [List.append_cons part (bytes, value') rest, List.append_cons before f after]
      rw [List.append_cons part (bytes, value') rest, List.append_cons before f after] at held'
      rw [List.append_cons before f after] at isLocal fresh
      have passed : before.length + 1 = (before ++ [f]).length := by
        rw [List.length_append, List.length_singleton]
      rw [passed] at ran'
      exact told_of_forceMembers faithful resolves forces _ _ isLocal fresh told' due' shaped held'
        room ran'

private theorem row_of_resolves (faithful : e.Faithful defs) : ∀ {after : List Format}
    (before : List Format) (part : Gapped) {rest : Gapped},
      LocalFields defs [] [] (before ++ after) → Fresh [] (before ++ after) →
      Told defs [] [] before part →
      Told defs (namesAfter [] before) (notedOf before part) after rest →
      Held store handle (part ++ rest).bytes base ctx₀ (before ++ after) (part ++ rest) →
      (part ++ rest).bytes.length ≤ Value.maxSize →
      (∀ i f, (before ++ after)[i]? = some f → f.name? = none →
        ∃ w store', Lookup.resolve e.parse handle i store = .ok w store') →
        ∃ row : Row, InRow defs (namesAfter [] before) (notedOf before part) after row ∧
          row.bytes = rest.bytes
  | [], _, _, [], _, _, _, _, _, _, _ => ⟨[], trivial, rfl⟩
  | f :: after, before, part, (bytes, value?) :: rest, isLocal, fresh, told, ⟨stands, blank, later⟩,
      held, room, resolves => by
      obtain ⟨-, isLocal_f, -⟩ := (localFields_append.mp isLocal).2
      have told' := told.snoc stands blank
      have later' := later
      rw [← namesAfter_snoc, ← notedOf_snoc told f bytes value?] at later'
      have held' := held
      rw [List.append_cons part (bytes, value?) rest, List.append_cons before f after] at held'
      have room' := room
      rw [List.append_cons part (bytes, value?) rest] at room'
      have isLocal' := isLocal
      have fresh' := fresh
      have resolves' := resolves
      rw [List.append_cons before f after] at isLocal' fresh' resolves'
      -- The members behind do not depend on this one where it has no name; where it has, it is
      -- known.
      obtain ⟨row, inRow, same⟩ := row_of_resolves faithful _ _ isLocal' fresh' told' later' held'
        room' resolves'
      rw [namesAfter_snoc, notedOf_snoc told] at inRow
      cases value? with
      | some v =>
          rw [entered_some] at inRow
          refine ⟨(bytes, v) :: row, ⟨stands v rfl, inRow⟩, ?_⟩
          rw [Row.bytes_cons, Gapped.bytes_cons, same]
      | none =>
          obtain ⟨unnamed, sized⟩ := blank rfl
          have at_f : (before ++ f :: after)[before.length]? = some f := by
            rw [List.getElem?_append_right (Nat.le_refl _), Nat.sub_self]
            rfl
          obtain ⟨w, store', resolved⟩ := resolves before.length f at_f unnamed
          obtain ⟨stands, -⟩ := stands_of_resolve faithful held room told fresh isLocal_f sized
            resolved
          rw [unnamed] at inRow
          refine ⟨(bytes, w) :: row, ⟨stands, ?_⟩, ?_⟩
          · rw [unnamed]
            exact inRow
          · rw [Row.bytes_cons, Gapped.bytes_cons, same]

private theorem scan_of_scanRecord {members : List Part} {isStruct : Bool} {path : Path}
    {result : Handle × List Slot} {s : State}
    (ran : scanRecord e isStruct members path ⟨.medium m, ctx, store⟩ = .ok result s) :
    ∃ slots s', scan e isStruct members path ⟨.medium m, ctx.push [], store⟩ = .ok slots s' := by
  unfold scanRecord at ran
  rw [Run.bind_of_ok (Run.tell_medium _ _ _)] at ran
  obtain ⟨framed, s₁, inner, -⟩ := Run.bind_eq_ok_iff.mp ran
  obtain ⟨s₂, inner, -⟩ := Run.ok_of_inFrame inner
  obtain ⟨slots, s₃, scanned, -⟩ := Run.bind_eq_ok_iff.mp inner
  exact ⟨slots, s₃, scanned⟩

/-- A lazy structure of which every member has been resolved is a row. -/
private theorem row_of_lazyStruct {e' : Engine} (faithful : e.Faithful defs)
    (faithful' : e'.Faithful defs)
    (isLocal : LocalFields defs [] [] fs) (fresh : Fresh [] fs)
    (whole : ∀ base, m.backing ≠ .snapshot base) (addressable : m.Addressable) {path : Path}
    {v c : Value} {s : State}
    (parsed : (lazyStruct e (Format.parts e defs fs)).parse path ⟨.medium m, ctx, store⟩ = .ok v s)
    (forced : e'.resolver.force v s.store = .ok c store')
    (verified : ∀ handle names, v = .lazyContainer handle names → ∀ i f, fs[i]? = some f →
      f.name? = none → ∃ w store'', e'.resolver.resolve handle i store' = .ok w store'') :
    ∃ row : Row, InRow defs [] [] fs row ∧ row.bytes <+: m.rest := by
  obtain ⟨⟨handle, slots⟩, s₁, recorded, last⟩ := Run.bind_eq_ok_iff.mp parsed
  cases last
  obtain ⟨found, s₂, scanned⟩ := scan_of_scanRecord recorded
  obtain ⟨sizes, ctx', rfl, skimmed, kept⟩ := skimmed_of_scan faithful addressable whole isLocal
    fresh (unindexed_push ctx) scanned
  obtain ⟨short, rfl, rfl, rfl⟩ := (scanRecord_eq_ok_iff scanned kept).mp recorded
  obtain ⟨row, bytes, due, shaped, caches⟩ := skimmed.due short
  rw [← bytes] at forced
  have stored := store.members?_add_self ⟨row.bytes, m.pos, ctx', slots, true⟩
  have held : Held (store.add ⟨row.bytes, m.pos, ctx', slots, true⟩).2
    store.entries.length row.bytes
      m.pos ctx' fs row := by
    refine ⟨⟨slots, stored, shaped⟩, fun i w found => ?_⟩
    rw [LazyStore.cached?_add_self] at found
    exact caches i w found
  have forced : Value.forceWith ⟨Lookup.resolve e'.parse, e'.forceMember⟩
      (.lazyContainer store.entries.length (slots.filterMap Slot.name))
      (store.add ⟨row.bytes, m.pos, ctx', slots, true⟩).2 = .ok c store' := forced
  have got (store : LazyStore) : (get : Lookup Failure LazyStore) store = .ok store store := rfl
  rw [Value.forceWith, Run.bind_of_ok (got _), stored] at forced
  obtain ⟨result, store₁, members, forced⟩ := Run.bind_eq_ok_iff.mp forced
  cases forced
  have room : row.bytes.length ≤ Value.maxSize := by
    rw [bytes, List.length_take]
    exact (Nat.min_le_right _ _).trans ((Medium.length_rest_le m).trans addressable.room)
  obtain ⟨full, same, told, held'⟩ := told_of_forceMembers faithful' rfl
    faithful'.force [] [] isLocal fresh trivial due shaped held room members
  obtain ⟨row', inRow, eq⟩ := row_of_resolves faithful' [] [] isLocal fresh
    trivial told held' (same ▸ room) (verified _ _ rfl)
  refine ⟨row', inRow, ?_⟩
  have all : row'.bytes = m.rest.take sizes.sum := by
    rw [eq, same, ← bytes]
    rfl
  rw [all]
  exact List.take_prefix _ _

end Codec

/-! ## Formats -/

namespace Format

open Codec (namesOf)

/-- A lazy structure that parses and can be forced, and whose unnamed members resolve as well, is
parsed by the eager structure, up to the same position and to the same public entries.  Forcing
itself resolves the named members only. -/
theorem eager_of_lazy (defs : Definitions) (j n k : Nat) {fields : List Format}
    (reads : LocalFields [] [] fields) (distinct : (namesOf fields).Nodup)
    (shown : ∀ name ∈ namesOf fields, Record.isPrivate name = false) {m : Medium}
    (whole : ∀ base, m.backing ≠ .snapshot base) (addressable : m.Addressable) {path : Path}
    {ctx : Context} {store store' : LazyStore} {v c : Value} {s : State}
    (parsed : ((lazyStruct fields).codec (.level defs (n + 1)) defs).parse path
      ⟨.medium m, ctx, store⟩ = .ok v s)
    (forced : (Engine.level defs (k + 1)).resolver.force v s.store = .ok c store')
    (verified : ∀ handle names, v = .lazyContainer handle names → ∀ i f, fields[i]? = some f →
      f.name? = none →
        ∃ w store'', (Engine.level defs (k + 1)).resolver.resolve handle i store' = .ok w store'')
    (overwrite : Bool) :
    ∃ frame s' fs, ((struct fields overwrite).codec (.level defs j) defs).parse path
        ⟨.medium m, ctx, store⟩ = .ok (.container frame) s' ∧
      s'.stream = s.stream ∧ c = .container fs ∧ Record.visible fs = Record.visible frame ∧
      ((Value.container frame).same (.container frame) = true →
        c.same (.container frame) = true) := by
  have isLocal := local_fields defs reads
  have fresh : Codec.Fresh [] fields := ⟨distinct, shown⟩
  obtain ⟨row, inRow, at_m⟩ := Codec.row_of_lazyStruct (Engine.faithful_level defs n)
    (Engine.faithful_level defs k) isLocal fresh whole addressable parsed forced verified
  obtain ⟨frame, ran, index⟩ :=
    Codec.struct_of_row (.level defs j) overwrite path ctx store inRow isLocal fresh at_m
  obtain ⟨v', store₁, store₂, parsed', forced'⟩ := Codec.lazyStruct_of_row
    (Engine.faithful_level defs n) (Engine.faithful_level defs k) addressable path ctx store
      inRow isLocal fresh at_m
  have parsed : (Codec.lazyStruct (.level defs (n + 1))
    (parts (.level defs (n + 1)) defs fields)).parse
      path ⟨.medium m, ctx, store⟩ = .ok v s := parsed
  rw [parsed'] at parsed
  cases parsed
  rw [forced'] at forced
  cases forced
  have public' : Record.visible (Codec.entriesOf fields row.values) = Record.visible frame := by
    rw [← index, Record.visible_unindexed]
  exact ⟨frame, _, _, ran, rfl, rfl, public', Value.same_of_visible public'⟩

theorem eager_of_lazy_counted :
    ∃ v s c store' frame s', ((lazyStruct countedFields).codec (.level [] 1) []).parse .this
        ⟨.medium ⟨.growing, [2, 1, 5, 6], 0⟩, .ofParams [], .empty⟩ = .ok v s ∧
      (Engine.level [] 1).resolver.force v s.store = .ok c store' ∧
      ((struct countedFields false).codec (.level [] 1) []).parse .this
        ⟨.medium ⟨.growing, [2, 1, 5, 6], 0⟩, .ofParams [], .empty⟩ = .ok (.container frame) s' ∧
      s'.stream = s.stream := by
  have works : (match ((lazyStruct countedFields).codec (.level [] 1) []).parse .this
        ⟨.medium ⟨.growing, [2, 1, 5, 6], 0⟩, .ofParams [], .empty⟩ with
      | .ok (.lazyContainer handle names) s =>
        match (Engine.level [] 1).resolver.force (.lazyContainer handle names) s.store with
        | .ok _ store' =>
          match (Engine.level [] 1).resolver.resolve handle 1 store' with
          | .ok _ _ => true
          | .error _ _ => false
        | .error _ _ => false
      | _ => false) = true := by
    decide +kernel
  split at works
  case h_2 => cases works
  case h_1 handle names s parsed =>
    split at works
    case h_2 => cases works
    case h_1 c store' forced =>
      split at works
      case h_2 => cases works
      case h_1 flag store'' resolved =>
        have verified : ∀ other shown,
          Value.lazyContainer handle names = .lazyContainer other shown →
            ∀ i f, countedFields[i]? = some f → f.name? = none →
              ∃ w store'', (Engine.level [] 1).resolver.resolve other i store' = .ok w store'' := by
          intro other shown same i f at_i unnamed
          cases same
          match i with
          | 0 | 2 =>
              cases at_i
              cases unnamed
          | 1 => exact ⟨flag, store'', resolved⟩
          | i + 3 => cases at_i
        obtain ⟨frame, s', fs, ran, stream, -⟩ := eager_of_lazy [] 1 0 0 local_countedFields
          (by decide) (by decide) (by intro base eq; cases eq)
          (by unfold Medium.Addressable; decide) parsed forced verified false
        exact ⟨_, s, c, store', frame, s', parsed, forced, ran, stream⟩

/-- Forcing does not look at a member without a name: a literal that was skipped is never
compared. -/
theorem lazy_accepts_literal :
    ∃ v s store', ((lazyStruct [.literal [0]]).codec (.level [] 1) []).parse .this
        ⟨.medium ⟨.growing, [1], 0⟩, .ofParams [], .empty⟩ = .ok v s ∧
      (Engine.level [] 1).resolver.force v s.store = .ok (.container []) store' ∧
      ∀ w s', ((struct [.literal [0]] false).codec (.level [] 1) []).parse .this
        ⟨.medium ⟨.growing, [1], 0⟩, .ofParams [], .empty⟩ ≠ .ok w s' := by
  refine ⟨_, _, _, rfl, rfl, fun w s' ran => ?_⟩
  cases ran

end Format

end BinaryFormat
