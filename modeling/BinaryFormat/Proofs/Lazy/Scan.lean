import BinaryFormat.Proofs.Lazy.Slots

/-!
# Finding out where members start

A scan leaves the first members parsed and the rest skipped.  It finds a row
where there is one, and the members that it has parsed are a row whatever it has
skipped.
-/

namespace BinaryFormat

/-- Positions up to the end have 64 bits, with one to spare. -/
def Medium.Addressable (m : Medium) : Prop := m.base + m.data.length < Nat.pow 2 63

private theorem Medium.Addressable.bound {m : Medium} (h : m.Addressable) {n : Nat}
    (short : n ≤ m.rest.length) (positive : 0 < n) : m.pos + n < Nat.pow 2 63 := by
  have reach : m.pos + n ≤ m.base + m.data.length := by
    unfold Medium.rest at short
    split at short
    · simp at short
      omega
    · rw [List.length_drop] at short
      omega
  exact Nat.lt_of_le_of_lt reach h

theorem Medium.Addressable.room {m : Medium} (h : m.Addressable) :
    m.data.length ≤ Value.maxSize :=
  Nat.le_trans (Nat.le_add_left _ _) (Nat.le_trans (Nat.le_of_lt h) (by decide))

namespace Medium

private theorem target_current (m : Medium) (n : Nat) :
    m.target (.current n) = (m.pos + n : Nat) := rfl

private theorem seek_of_whole {m : Medium} (whole : ∀ base, m.backing ≠ .snapshot base)
    (dest : SeekTo) :
    m.seek dest = if 0 ≤ m.target dest ∧ m.target dest < Nat.pow 2 64 then
      .ok { m with pos := (m.target dest).toNat } else .error .outside := by
  obtain ⟨backing, data, pos⟩ := m
  cases backing with
  | snapshot base => exact absurd rfl (whole base)
  | growing | fixed => rfl

theorem seek_current {m : Medium} {n : Nat} (h : m.pos + n < Nat.pow 2 64) :
    m.seek (.current n) = .ok (m.skip n) := by
  by_cases whole : ∀ base, m.backing ≠ .snapshot base
  · have inside : 0 ≤ m.target (.current n) ∧ m.target (.current n) < Nat.pow 2 64 := by
      rw [target_current]
      exact ⟨Int.natCast_nonneg _, by exact_mod_cast h⟩
    rw [seek_of_whole whole, if_pos inside]
    rfl
  · push Not at whole
    obtain ⟨base, backing⟩ := whole
    simp only [seek, backing, target_current, Int.toNat_natCast, Nat.mod_eq_of_lt h, skip]
    exact if_neg (Int.not_lt.mpr (Int.natCast_nonneg _))

private theorem eq_skip_of_seek {m m' : Medium} {n : Nat}
    (whole : ∀ base, m.backing ≠ .snapshot base)
    (h : m.seek (.current n) = .ok m') : m' = m.skip n := by
  rw [seek_of_whole whole, target_current] at h
  split at h
  · cases h
    rfl
  · cases h

end Medium

namespace Run

variable {m m' : Medium} {ctx : Context} {store : LazyStore} {path : Path} {n : Nat}

theorem seek_of_medium (h : m.seek (.current n) = .ok m') :
    seek (.current n) path ⟨.medium m, ctx, store⟩ = .ok m'.pos ⟨.medium m', ctx, store⟩ := by
  simp only [seek, Stream.seek, h]

private theorem medium_of_seek {q : Nat} {s : State}
    (h : seek (.current n) path ⟨.medium m, ctx, store⟩ = .ok q s) :
    ∃ m', m.seek (.current n) = .ok m' ∧ s = ⟨.medium m', ctx, store⟩ := by
  cases sought : m.seek (.current n) with
  | error fault =>
      simp only [seek, Stream.seek, sought] at h
      cases h
  | ok m' =>
      rw [seek_of_medium sought] at h
      cases h
      exact ⟨m', rfl, rfl⟩

end Run

namespace Codec

variable {defs : Definitions} {e : Engine} {names : List String} {known : Record Value}
  {ctx : Context} {m : Medium} {store : LazyStore}

/-- Whether a member is skipped is settled by what is known; its size is then known. -/
theorem skippable_cases {c : Engine → Codec} (h : Local [names] c)
    (agrees : AgreesOn names known ctx) (eager : Value.EagerFields known) (e : Engine)
    (f : Format) (place : Path) (stream : Stream) (store : LazyStore) :
    (∃ n, 0 < n ∧ Sized c names known n ∧
      skippable? ⟨f, c e⟩ place ⟨stream, ctx, store⟩ = .ok (some n) ⟨stream, ctx, store⟩) ∨
    skippable? ⟨f, c e⟩ place ⟨stream, ctx, store⟩ = .ok none ⟨stream, ctx, store⟩ := by
  have self : Reach.Carries [names] ctx.frames ctx.frames := by
    refine ⟨fun name mem plain w => ⟨id, fun found => ?_⟩, trivial⟩
    have found : Record.get? ctx.innermost name = some w := found
    rw [agrees name mem plain] at found
    exact eager.get? found
  obtain ⟨result, outcome, known⟩ := h.carried_size self place place
  have now : Run.outcome ((c e).sizeNow place) ⟨stream, ctx, store⟩ =
      .ok result ⟨stream, ctx, store⟩ := by
    have sized : (c e).sizeNow place ⟨stream, ctx, store⟩ =
        Run.lookup ((c e).size ctx place) ⟨stream, ctx, store⟩ := rfl
    have answer : (c e).size ctx place = Lookup.ofExcept result := outcome e
    unfold Run.outcome
    rw [sized, answer]
    cases result <;> rfl
  unfold skippable?
  rw [Run.bind_of_ok now]
  cases result with
  | error failure => exact .inr rfl
  | ok n =>
      by_cases zero : n = 0
      · exact .inr (by simp [zero])
      · refine .inl ⟨n, Nat.pos_of_ne_zero zero, h.sized agrees (known n rfl).1, ?_⟩
        simp [zero]

/-! ## What a scan has done -/

/-- The first members are parsed and shown by the frame, and the ones behind them are
skipped. -/
structure Scanned (defs : Definitions) (m : Medium) (fs : List Format) (row : Row)
    (later : List Format) (sizes : List Nat) (slots : List Slot) (ctx : Context) : Prop where
  inRow : InRow defs [] [] fs row
  at_m : row.bytes <+: m.rest
  slots : ∃ done left, slots = done ++ left ∧ SlotsAt m.pos fs row.parsed done ∧
    SlotsAt (m.pos + row.bytes.length) later (unparsed sizes) left
  shown : Record.unindexed ctx.innermost = entriesOf fs row.values

namespace Row

private theorem parsed_append (row others : Row) :
    parsed (row ++ others) = parsed row ++ parsed others :=
  List.map_append

private theorem sizes_append (row others : Row) :
    sizes (row ++ others) = sizes row ++ sizes others :=
  List.map_append

theorem sum_parsed (row : Row) : ((parsed row).map Prod.fst).sum = (bytes row).length := by
  simp [parsed, bytes, Function.comp_def]

end Row

private theorem sum_unparsed (sizes : List Nat) :
    ((unparsed sizes).map Prod.fst).sum = sizes.sum := by
  simp [unparsed, Function.comp_def]

variable {fs later : List Format} {row others : Row} {sizes : List Nat} {slots slots' : List Slot}
  {f : Format}

private theorem Scanned.eager (h : Scanned defs m fs row later sizes slots ctx) :
    Value.EagerFields (entriesOf fs row.values) := h.inRow.eager

private theorem Scanned.filled {done filled : List Slot} {ctx' : Context}
    (inRow : InRow defs [] [] fs row)
    (others_in : InRow defs (namesAfter [] fs) (entriesOf fs row.values) later others)
    (at_m : (row ++ others).bytes <+: m.rest) (marked : SlotsAt m.pos fs row.parsed done)
    (marked' : SlotsAt (m.pos + row.bytes.length) later others.parsed filled)
    (shown : Record.unindexed ctx'.innermost =
      entriesOf fs row.values ++ entriesOf later others.values) :
    Scanned defs m (fs ++ later) (row ++ others) [] [] (done ++ filled) ctx' where
  inRow := inRow.append others_in
  at_m := at_m
  slots := by
    refine ⟨done ++ filled, [], (List.append_nil _).symm, ?_, trivial⟩
    rw [Row.parsed_append]
    refine marked.append ?_
    rwa [Row.sum_parsed]
  shown := by
    rw [shown, Row.values_append, entriesOf_append inRow.length_eq]

/-- Members whose bytes stand there are parsed after all. -/
private theorem Scanned.materialize (h : Scanned defs m fs row later others.sizes slots ctx)
    (faithful : e.Faithful defs)
    (others_in : InRow defs (namesAfter [] fs) (entriesOf fs row.values) later others)
    (fresh : Fresh [] (fs ++ later)) (at_m : (row ++ others).bytes <+: m.rest) (p : Nat)
    (store : LazyStore) :
    ∃ slots' ctx', materialize e slots ⟨.medium (m.moved p), ctx, store⟩ =
        .ok slots' ⟨.medium (m.moved p), ctx', store⟩ ∧
      Scanned defs m (fs ++ later) (row ++ others) [] [] slots' ctx' ∧ ctx.Kept ctx' := by
  obtain ⟨inRow, _, ⟨done, left, rfl, marked, marked'⟩, shown⟩ := h
  have behind : others.bytes <+: (m.moved (m.pos + row.bytes.length)).rest := by
    rw [Row.bytes_append] at at_m
    obtain ⟨tail, eq⟩ := at_m
    have short : row.bytes.length ≤ m.rest.length := by
      rw [← eq]
      simp
    refine ⟨tail, ?_⟩
    rw [Medium.rest_moved short, ← eq, List.append_assoc, List.drop_left]
  obtain ⟨filled, ctx', q, ran, marked'', kept, shown'⟩ :=
    fillSlots_of_row faithful store (p := p) marked' others_in
      (fresh.after inRow.length_eq) inRow.eager shown behind
  refine ⟨done ++ filled, ctx', ?_,
    Scanned.filled inRow others_in at_m marked marked'' shown', kept⟩
  unfold Codec.materialize
  rw [fillSlots_parsed e left marked]
  refine Run.bind_eq_ok_iff.mpr ⟨p, _, rfl, ?_⟩
  refine Run.bind_eq_ok_iff.mpr ⟨done ++ filled, ⟨.medium (m.moved q), ctx', store⟩, ?_, rfl⟩
  rw [map_eq_pure_bind]
  exact Run.bind_eq_ok_iff.mpr ⟨filled, _, ran, rfl⟩

private theorem Scanned.of_materialize (h : Scanned defs m fs row later sizes slots ctx)
    (faithful : e.Faithful defs) (addressable : m.Addressable)
    (sized : InSizes defs (entriesOf fs row.values) (namesAfter [] fs) later sizes)
    (isLocal : LocalFields defs [] (namesAfter [] fs) later) (fresh : Fresh [] (fs ++ later))
    {p : Nat} {s : State}
    (ran : Codec.materialize e slots ⟨.medium (m.moved p), ctx, store⟩ = .ok slots' s) :
    ∃ (others : Row) (ctx' : Context), others.sizes = sizes ∧
      s = ⟨.medium (m.moved p), ctx', store⟩ ∧
      Scanned defs m (fs ++ later) (row ++ others) [] [] slots' ctx' ∧ ctx.Kept ctx' := by
  obtain ⟨inRow, at_m, ⟨done, left, rfl, marked, marked'⟩, shown⟩ := h
  unfold Codec.materialize at ran
  rw [fillSlots_parsed e left marked] at ran
  obtain ⟨_, s₁, told, ran⟩ := Run.bind_eq_ok_iff.mp ran
  cases told
  obtain ⟨_, s₂, filling, ran⟩ := Run.bind_eq_ok_iff.mp ran
  rw [map_eq_pure_bind] at filling
  obtain ⟨filled, s₃, filling, joined⟩ := Run.bind_eq_ok_iff.mp filling
  cases joined
  cases ran
  obtain ⟨others, rfl, others_in, behind, marked'', ctx', q, rfl, kept, shown'⟩ :=
    row_of_fillSlots faithful addressable.room marked' sized List.prefix_rfl isLocal
      (fresh.after inRow.length_eq) inRow.eager shown filling
  refine ⟨others, ctx', rfl, rfl, Scanned.filled inRow others_in ?_ marked marked'' shown', kept⟩
  rw [Row.bytes_append]
  rw [Medium.rest_moved at_m.length_le] at behind
  obtain ⟨front, eq⟩ := at_m
  obtain ⟨tail, eq'⟩ := behind
  rw [← eq, List.drop_left] at eq'
  refine ⟨tail, ?_⟩
  rw [List.append_assoc, eq', eq]

private theorem Scanned.skip (h : Scanned defs m fs row later sizes slots ctx) {n : Nat}
    {slot : Slot}
    (here : IsSlot f (m.pos + row.bytes.length + sizes.sum) none slot) :
    Scanned defs m fs row (later ++ [f]) (sizes ++ [n]) (slots ++ [slot]) ctx := by
  obtain ⟨inRow, at_m, ⟨done, left, rfl, marked, marked'⟩, shown⟩ := h
  refine ⟨inRow, at_m, ⟨done, left ++ [slot], List.append_assoc _ _ _, marked, ?_⟩, shown⟩
  have joined : unparsed (sizes ++ [n]) = unparsed sizes ++ [(n, none)] := List.map_append
  rw [joined]
  refine marked'.append ?_
  rw [sum_unparsed]
  exact ⟨here, trivial⟩

/-- A member that is parsed where nothing before it is skipped. -/
private theorem Scanned.parse (h : Scanned defs m fs row [] [] slots ctx) {bytes : List UInt8}
    {v : Value}
    (stands : Stands (fun e => f.codec e defs) (namesAfter [] fs) (entriesOf fs row.values) bytes v)
    (fresh : Fresh [] (fs ++ [f])) (there : bytes <+: (m.moved (m.pos + row.bytes.length)).rest)
    {notes : Record Value} (noted : Notes (· = "_index") notes) {slot : Slot}
    (here : IsSlot f (m.pos + row.bytes.length) (some v) slot) :
    Scanned defs m (fs ++ [f]) (row ++ [(bytes, v)]) [] [] (slots ++ [slot])
      ((ctx.extend notes).extend (entryOf f.name? v)) := by
  obtain ⟨inRow, at_m, ⟨done, left, rfl, marked, marked'⟩, shown⟩ := h
  obtain rfl : left = [] := by
    cases left with
    | nil => rfl
    | cons => exact marked'.elim
  have index : Record.unindexed (ctx.extend notes).innermost = entriesOf fs row.values := by
    rw [Context.innermost_extend,
      Record.unindexed_extend (fun entry mem => (noted entry mem).2), shown]
  have whole : (row ++ [(bytes, v)]).bytes <+: m.rest := by
    rw [Medium.rest_moved at_m.length_le] at there
    obtain ⟨front, eq⟩ := at_m
    obtain ⟨tail, eq'⟩ := there
    rw [← eq, List.drop_left] at eq'
    refine ⟨tail, ?_⟩
    rw [Row.bytes_append, Row.bytes_cons, Row.bytes_nil, List.append_nil, List.append_assoc, eq',
      eq]
  have entered := unindexed_entryOf (fresh.after inRow.length_eq) index v
  rw [List.append_nil]
  refine Scanned.filled inRow (show InRow defs _ _ [f] [(bytes, v)] from ⟨stands, trivial⟩) whole
    marked ⟨here, trivial⟩ ?_
  rw [entered]
  simp [entriesOf]

/-! ## Scanning -/

/-- Where the path of a scan puts a member. -/
def placed (isStruct : Bool) (path : Path) (i : Nat) (name : Option String) : Path :=
  if isStruct then path.memberIf name else path.element i

theorem scanMembers_cons (e : Engine) (isStruct : Bool) (path : Path) (i : Nat) (c : Codec)
    (plain : f.isEmbedded = false) (rest : List Part) (slots : List Slot) :
    scanMembers e isStruct path i (⟨f, c⟩ :: rest) slots = (do
      let offset ← Run.tell
      match ← skippable? ⟨f, c⟩ (placed isStruct path i f.name?) with
      | some n =>
        if Nat.pow 2 63 ≤ n then
          Run.fail (.shortage (.member n)) (placed isStruct path i f.name?)
        else
          let _ ← Run.seek (.current n) (placed isStruct path i f.name?)
          scanMembers e isStruct path (i + 1) rest (slots ++
            [⟨f.name?, offset, f, placed isStruct path i f.name?, none, none⟩])
      | none =>
        let slots ← materialize e slots
        let v ← Run.tagged (c.parse (placed isStruct path i f.name?))
        Run.modifyContext (·.extend (entryOf f.name? v))
        scanMembers e isStruct path (i + 1) rest (slots ++
          [⟨f.name?, offset, f, placed isStruct path i f.name?, none, some v⟩])) := by
  have named : Part.name? ⟨f, c⟩ = f.name? := rfl
  have noted (v : Value) :
    noteItem ⟨f, c⟩ v = Run.modifyContext (·.extend (entryOf f.name? v)) := by
    funext s
    exact noteItem_apply ⟨f, c⟩ v s
  rw [scanMembers]
  simp only [plain, Bool.and_false, Bool.false_eq_true, if_false, named, noted]
  refine bind_congr fun offset => bind_congr fun size => ?_
  cases size with
  | none => rfl
  | some n =>
      by_cases large : Nat.pow 2 63 ≤ n
      · simp only [if_pos large]
        rfl
      · simp only [if_neg large]
        rfl

section Steps

variable {c : Codec} {p : Nat} {isStruct : Bool} {path : Path} {i : Nat} {stream : Stream}

private theorem scanMembers_skip (plain : f.isEmbedded = false) {n : Nat}
    (answer : skippable? ⟨f, c⟩ (placed isStruct path i f.name?) ⟨stream, ctx, store⟩ =
      .ok (some n) ⟨stream, ctx, store⟩) (rest : List Part) (slots : List Slot) :
    scanMembers e isStruct path i (⟨f, c⟩ :: rest) slots ⟨stream, ctx, store⟩ =
      (if Nat.pow 2 63 ≤ n then Run.fail (.shortage (.member n)) (placed isStruct path i f.name?)
        else do
          let _ ← Run.seek (.current n) (placed isStruct path i f.name?)
          scanMembers e isStruct path (i + 1) rest (slots ++
            [⟨f.name?, stream.pos, f, placed isStruct path i f.name?, none, none⟩]))
        ⟨stream, ctx, store⟩ := by
  have told : Run.tell ⟨stream, ctx, store⟩ = .ok stream.pos ⟨stream, ctx, store⟩ := rfl
  rw [scanMembers_cons e isStruct path i c plain, Run.bind_of_ok told, Run.bind_of_ok answer]

private theorem scanMembers_parse (plain : f.isEmbedded = false)
    (answer : skippable? ⟨f, c⟩ (placed isStruct path i f.name?) ⟨stream, ctx, store⟩ =
      .ok none ⟨stream, ctx, store⟩) (rest : List Part) (slots : List Slot) :
    scanMembers e isStruct path i (⟨f, c⟩ :: rest) slots ⟨stream, ctx, store⟩ =
      (do
        let slots ← materialize e slots
        let v ← Run.tagged (c.parse (placed isStruct path i f.name?))
        Run.modifyContext (·.extend (entryOf f.name? v))
        scanMembers e isStruct path (i + 1) rest (slots ++
          [⟨f.name?, stream.pos, f, placed isStruct path i f.name?, none, some v⟩]) : Run _)
        ⟨stream, ctx, store⟩ := by
  have told : Run.tell ⟨stream, ctx, store⟩ = .ok stream.pos ⟨stream, ctx, store⟩ := rfl
  rw [scanMembers_cons e isStruct path i c plain, Run.bind_of_ok told, Run.bind_of_ok answer]

end Steps

/-- Members that make up a row, of which the first ones are parsed and the others skipped. -/
def Ready (defs : Definitions) (m : Medium) (fs : List Format) (row : Row) (slots : List Slot)
    (ctx : Context) : Prop :=
  InRow defs [] [] fs row ∧ ∃ first second parsed skipped, fs = first ++ second ∧
    row = parsed ++ skipped ∧ Scanned defs m first parsed second skipped.sizes slots ctx ∧
    InRow defs (namesAfter [] first) (entriesOf first parsed.values) second skipped

/-- Members of which the first ones are a row, and the others have sizes. -/
def Skimmed (defs : Definitions) (m : Medium) (fs : List Format) (sizes : List Nat)
    (slots : List Slot) (ctx : Context) : Prop :=
  ∃ first second parsed skipped, fs = first ++ second ∧ sizes = Row.sizes parsed ++ skipped ∧
    Scanned defs m first parsed second skipped slots ctx ∧
    InSizes defs (entriesOf first parsed.values) (namesAfter [] first) second skipped

theorem namesAfter_snoc (names : List String) (fs : List Format) (f : Format) :
    namesAfter names (fs ++ [f]) = f.name?.toList ++ namesAfter names fs :=
  namesAfter_append names fs [f]

theorem entriesOf_snoc (h : InRow defs names known fs row) (f : Format) (bytes : List UInt8)
    (v : Value) : entriesOf (fs ++ [f]) (row ++ [(bytes, v)]).values =
      entriesOf fs row.values ++ entryOf f.name? v := by
  rw [Row.values_append, entriesOf_append h.length_eq]
  simp [entriesOf]

private theorem bytes_snoc (row : Row) (bytes : List UInt8) (v : Value) :
    (row ++ [(bytes, v)]).bytes = row.bytes ++ bytes := by
  rw [Row.bytes_append, Row.bytes_cons, Row.bytes_nil, List.append_nil]

private theorem Row.prefix_behind {bytes : List UInt8} {v : Value}
    (h : (row ++ [(bytes, v)] ++ others).bytes <+: m.rest) :
    bytes <+: (m.moved (m.pos + row.bytes.length)).rest := by
  rw [Row.bytes_append, bytes_snoc] at h
  obtain ⟨tail, eq⟩ := h
  have short : row.bytes.length ≤ m.rest.length := by
    rw [← eq]
    simp
  refine ⟨others.bytes ++ tail, ?_⟩
  rw [Medium.rest_moved short, ← eq]
  simp

section Forward

variable {bytes : List UInt8} {v : Value} {gs : List Format}

private theorem Scanned.all_entries (h : Scanned defs m fs row later sizes slots ctx) :
    entriesOf fs row.values ++ entriesOf later others.values =
      entriesOf (fs ++ later) (row ++ others).values := by
  rw [Row.values_append, entriesOf_append h.inRow.length_eq]

private theorem Ready.skip (h : Ready defs m fs row slots ctx)
    (stands : Stands (fun e => f.codec e defs) (namesAfter [] fs) (entriesOf fs row.values) bytes v)
    (place : Path) :
    Ready defs m (fs ++ [f]) (row ++ [(bytes, v)])
      (slots ++ [⟨f.name?, m.pos + row.bytes.length, f, place, none, none⟩]) ctx := by
  obtain ⟨inRow, first, second, parsed, skipped, rfl, rfl, scanned, skipped_in⟩ := h
  have offset : m.pos + (parsed ++ skipped).bytes.length =
      m.pos + parsed.bytes.length + skipped.sizes.sum := by
    rw [Row.sum_sizes, Row.bytes_append, List.length_append, Nat.add_assoc]
  have last_in : InRow defs (namesAfter (namesAfter [] first) second)
      (entriesOf first parsed.values ++ entriesOf second skipped.values) [f] [(bytes, v)] := by
    rw [scanned.all_entries, ← namesAfter_append]
    exact ⟨stands, trivial⟩
  refine ⟨inRow.append ⟨stands, trivial⟩, first, second ++ [f], parsed, skipped ++ [(bytes, v)],
    List.append_assoc _ _ _, List.append_assoc _ _ _, ?_, skipped_in.append last_in⟩
  rw [Row.sizes_append]
  exact scanned.skip ⟨rfl, offset, rfl, rfl, rfl⟩

/-- Every member of a row is skipped or parsed. -/
private theorem Ready.step (h : Ready defs m fs row slots ctx) (faithful : e.Faithful defs)
    (addressable : m.Addressable) (isStruct : Bool) (path : Path) (i : Nat)
    (plain : f.isEmbedded = false) (isLocal : Local [namesAfter [] fs] (fun e => f.codec e defs))
    (stands : Stands (fun e => f.codec e defs) (namesAfter [] fs) (entriesOf fs row.values) bytes v)
    (fresh : Fresh [] (fs ++ [f])) (at_m : (row ++ [(bytes, v)]).bytes <+: m.rest)
    (store : LazyStore) :
    ∃ slots' ctx', (∀ rest, scanMembers e isStruct path i (⟨f, f.codec e defs⟩ :: rest) slots
        ⟨.medium (m.moved (m.pos + row.bytes.length)), ctx, store⟩ =
          scanMembers e isStruct path (i + 1) rest slots'
            ⟨.medium (m.moved (m.pos + (row ++ [(bytes, v)]).bytes.length)), ctx', store⟩) ∧
      Ready defs m (fs ++ [f]) (row ++ [(bytes, v)]) slots' ctx' ∧ ctx.Kept ctx' := by
  have there : bytes <+: (m.moved (m.pos + row.bytes.length)).rest := by
    rw [← List.append_nil (row ++ [(bytes, v)])] at at_m
    exact Row.prefix_behind at_m
  have landed : (m.moved (m.pos + row.bytes.length)).skip bytes.length =
      m.moved (m.pos + (row ++ [(bytes, v)]).bytes.length) := by
    rw [Medium.skip_moved, bytes_snoc, List.length_append, Nat.add_assoc]
  have ready := h
  obtain ⟨inRow, first, second, parsed, skipped, rfl, rfl, scanned, skipped_in⟩ := h
  rcases skippable_cases isLocal (agreesOn_of_unindexed scanned.shown) scanned.eager e f
      (placed isStruct path i f.name?)
      (.medium (m.moved (m.pos + (parsed ++ skipped).bytes.length))) store with
    ⟨n, positive, sized, answer⟩ | answer
  · have sized := sized.append (entriesOf second skipped.values)
    rw [scanned.all_entries] at sized
    obtain rfl : bytes.length = n := stands.length_eq isLocal sized inRow.eager
      (there.length_le.trans ((Medium.length_rest_le _).trans addressable.room))
    have inside : (m.moved (m.pos + (parsed ++ skipped).bytes.length)).Addressable := addressable
    have bound := inside.bound there.length_le positive
    have small : ¬ Nat.pow 2 63 ≤ bytes.length :=
      Nat.not_le.mpr (Nat.lt_of_le_of_lt (Nat.le_add_left _ _) bound)
    have sought := Medium.seek_current (Nat.lt_trans bound (by decide))
    rw [landed] at sought
    -- The size says where the member ends, so skipping it leads to where its bytes end.
    refine ⟨_, ctx, fun rest => ?_, ready.skip stands (placed isStruct path i f.name?), .refl ctx⟩
    rw [scanMembers_skip plain answer, if_neg small, Run.bind_of_ok (Run.seek_of_medium sought)]
    rfl
  · obtain ⟨slots₁, ctx₁, filling, filled, kept⟩ := scanned.materialize faithful
      skipped_in fresh.before ((by
        rw [bytes_snoc]
        exact List.prefix_append _ _ : (parsed ++ skipped).bytes <+: _).trans at_m)
      (m.pos + (parsed ++ skipped).bytes.length) store
    obtain ⟨notes, noted, ran⟩ := stands.2 e (placed isStruct path i f.name?) ctx₁
      (m.moved (m.pos + (parsed ++ skipped).bytes.length)) store
      (shows_of_unindexed filled.shown filled.eager) there
    have here : IsSlot f (m.pos + (parsed ++ skipped).bytes.length) (some v)
        ⟨f.name?, m.pos + (parsed ++ skipped).bytes.length, f, placed isStruct path i f.name?, none,
          some v⟩ := ⟨rfl, rfl, rfl, rfl, rfl⟩
    -- All that were skipped are parsed first, so the member sees the values of those in front of
    -- it.
    have parses := filled.parse stands fresh there noted here
    refine ⟨_, _, fun rest => ?_, ⟨inRow.append ⟨stands, trivial⟩, first ++ second ++ [f], [],
      parsed ++ skipped ++ [(bytes, v)], [], (List.append_nil _).symm, (List.append_nil _).symm,
      parses, trivial⟩, (kept.trans (ctx₁.kept_extend notes)).trans (Context.kept_extend _ _)⟩
    rw [scanMembers_parse plain answer, Run.bind_of_ok filling,
      Run.bind_of_ok (Run.tagged_of_ok ran), landed]
    rfl

/-- A scan walks over every row. -/
private theorem scanMembers_of_row (faithful : e.Faithful defs) (addressable : m.Addressable)
    (isStruct : Bool) (path : Path) (store : LazyStore) : ∀ {gs : List Format} {others : Row}
    {fs : List Format}
    {row : Row} {i : Nat} {slots : List Slot} {ctx : Context},
      Ready defs m fs row slots ctx →
      InRow defs (namesAfter [] fs) (entriesOf fs row.values) gs others →
      LocalFields defs [] (namesAfter [] fs) gs → Fresh [] (fs ++ gs) →
      (row ++ others).bytes <+: m.rest →
        ∃ slots' ctx', scanMembers e isStruct path i (Format.parts e defs gs) slots
            ⟨.medium (m.moved (m.pos + row.bytes.length)), ctx, store⟩ =
              .ok slots' ⟨.medium (m.moved (m.pos + (row ++ others).bytes.length)), ctx', store⟩ ∧
          Ready defs m (fs ++ gs) (row ++ others) slots' ctx' ∧ ctx.Kept ctx'
  | [], [], fs, row, _, slots, ctx, ready, _, _, _, _ => by
      refine ⟨slots, ctx, ?_, ?_, .refl ctx⟩
      · rw [List.append_nil]
        rfl
      · rwa [List.append_nil, List.append_nil]
  | f :: gs, (bytes, v) :: others, fs, row, i, slots, ctx, ready, ⟨stands, behind⟩,
      ⟨plain, isLocal, last⟩, fresh, at_m => by
      rw [← namesAfter_snoc] at behind last
      rw [← entriesOf_snoc ready.1] at behind
      rw [List.append_cons fs f gs] at fresh ⊢
      rw [List.append_cons row (bytes, v) others] at at_m ⊢
      have front : (row ++ [(bytes, v)]).bytes <+: m.rest := by
        rw [Row.bytes_append] at at_m
        exact (List.prefix_append _ _).trans at_m
      obtain ⟨slots₁, ctx₁, step, ready₁, kept⟩ := ready.step faithful addressable
        isStruct path i plain isLocal stands fresh.before front store
      obtain ⟨slots', ctx', ran, ready', kept'⟩ :=
        scanMembers_of_row faithful addressable isStruct path store ready₁ behind last fresh at_m
      exact ⟨slots', ctx', (step _).trans ran, ready', kept.trans kept'⟩

end Forward

private theorem InSizes.append : ∀ {fs gs : List Format} {sizes more : List Nat}
    {names : List String},
    InSizes defs known names fs sizes → InSizes defs known (namesAfter names fs) gs more →
      InSizes defs known names (fs ++ gs) (sizes ++ more)
  | [], _, [], _, _, _, h => h
  | _ :: _, _, _ :: _, _, _, ⟨here, later⟩, h => ⟨here, later.append h⟩

private theorem Skimmed.step (h : Skimmed defs m fs sizes slots ctx) (faithful : e.Faithful defs)
    (addressable : m.Addressable) (whole : ∀ base, m.backing ≠ .snapshot base) {isStruct : Bool}
    {path : Path} {i : Nat}
    (isLocal : LocalFields defs [] [] (fs ++ [f])) (fresh : Fresh [] (fs ++ [f]))
    {rest : List Part} {s : State}
    (ran : scanMembers e isStruct path i (⟨f, f.codec e defs⟩ :: rest) slots
      ⟨.medium (m.moved (m.pos + sizes.sum)), ctx, store⟩ = .ok slots' s) :
    ∃ n slots₁ ctx₁, scanMembers e isStruct path (i + 1) rest slots₁
        ⟨.medium (m.moved (m.pos + (sizes ++ [n]).sum)), ctx₁, store⟩ = .ok slots' s ∧
      Skimmed defs m (fs ++ [f]) (sizes ++ [n]) slots₁ ctx₁ ∧ ctx.Kept ctx₁ := by
  have total (n : Nat) : m.pos + sizes.sum + n = m.pos + (sizes ++ [n]).sum := by
    rw [List.sum_append, List.sum_singleton, Nat.add_assoc]
  obtain ⟨members, here⟩ := localFields_append.mp isLocal
  obtain ⟨plain, isLocal, -⟩ := here
  obtain ⟨first, second, parsed, skipped, rfl, rfl, scanned, sized⟩ := h
  rcases skippable_cases isLocal (agreesOn_of_unindexed scanned.shown) scanned.eager e f
      (placed isStruct path i f.name?)
      (.medium (m.moved (m.pos + (parsed.sizes ++ skipped).sum))) store with
    ⟨n, -, size, answer⟩ | answer
  · rw [scanMembers_skip plain answer] at ran
    split at ran
    · cases ran
    obtain ⟨_, s₁, sought, ran⟩ := Run.bind_eq_ok_iff.mp ran
    obtain ⟨_, landed, rfl⟩ := Run.medium_of_seek sought
    obtain rfl := Medium.eq_skip_of_seek (m := m.moved (m.pos + (parsed.sizes ++ skipped).sum))
      whole landed
    rw [Medium.skip_moved, total] at ran
    have offset : m.pos + (parsed.sizes ++ skipped).sum =
        m.pos + parsed.bytes.length + skipped.sum := by
      rw [List.sum_append, Row.sum_sizes, Nat.add_assoc]
    refine ⟨n, _, ctx, ran, ⟨first, second ++ [f], parsed, skipped ++ [n], List.append_assoc _ _ _,
      List.append_assoc _ _ _, scanned.skip ⟨rfl, offset, rfl, rfl, rfl⟩, sized.append ?_⟩,
      .refl ctx⟩
    rw [← namesAfter_append]
    exact ⟨size, trivial⟩
  · rw [scanMembers_parse plain answer] at ran
    obtain ⟨slots₁, s₁, filling, ran⟩ := Run.bind_eq_ok_iff.mp ran
    -- A member whose size is not known is parsed, and all that were skipped in front of it are
    -- parsed first.
    obtain ⟨others, ctx₁, rfl, rfl, filled, kept⟩ := scanned.of_materialize faithful
      addressable sized (localFields_append.mp members).2 fresh.before filling
    have offset : m.pos + (parsed.sizes ++ others.sizes).sum =
        m.pos + (parsed ++ others).bytes.length := by
      rw [← Row.sizes_append, Row.sum_sizes]
    obtain ⟨v, s₂, parsing, ran⟩ := Run.bind_eq_ok_iff.mp ran
    have parsing : ((fun e => f.codec e defs) e).parse (placed isStruct path i f.name?)
        ⟨.medium (m.moved (m.pos + (parsed.sizes ++ others.sizes).sum)), ctx₁, store⟩ = .ok v s₂ :=
      Run.tagged_eq_ok_iff.mp parsing
    obtain ⟨n, notes, rfl, short, noted, stands, -⟩ :=
      isLocal.stands (agreesOn_of_unindexed filled.shown) filled.eager parsing
    have length : ((m.moved (m.pos + (parsed ++ others).bytes.length)).rest.take n).length = n := by
      rw [List.length_take, ← offset, Nat.min_eq_left short]
    rw [offset] at stands
    have here : IsSlot f (m.pos + (parsed ++ others).bytes.length) (some v)
        ⟨f.name?, m.pos + (parsed.sizes ++ others.sizes).sum, f,
          placed isStruct path i f.name?, none,
          some v⟩ := ⟨rfl, offset, rfl, rfl, rfl⟩
    have parses := filled.parse stands fresh (List.take_prefix n _) noted here
    obtain ⟨_, s₃, entered, ran⟩ := Run.bind_eq_ok_iff.mp ran
    cases entered
    rw [Medium.skip_moved, total] at ran
    refine ⟨n, _, _, ran, ⟨first ++ second ++ [f], [], _, [], (List.append_nil _).symm, ?_, parses,
      trivial⟩, (kept.trans (ctx₁.kept_extend notes)).trans (Context.kept_extend _ _)⟩
    rw [Row.sizes_append, Row.sizes_append, List.append_nil]
    simp only [Row.sizes, List.map_cons, List.map_nil, length]

private theorem skimmed_of_scanMembers (faithful : e.Faithful defs) (addressable : m.Addressable)
    (whole : ∀ base, m.backing ≠ .snapshot base) {isStruct : Bool} {path : Path} :
    ∀ {gs fs : List Format} {sizes : List Nat} {i : Nat} {slots slots' : List Slot} {ctx : Context}
    {s : State}, Skimmed defs m fs sizes slots ctx → LocalFields defs [] [] (fs ++ gs) →
      Fresh [] (fs ++ gs) →
      scanMembers e isStruct path i (Format.parts e defs gs) slots
        ⟨.medium (m.moved (m.pos + sizes.sum)), ctx, store⟩ = .ok slots' s →
        ∃ more ctx', s = ⟨.medium (m.moved (m.pos + (sizes ++ more).sum)), ctx', store⟩ ∧
          Skimmed defs m (fs ++ gs) (sizes ++ more) slots' ctx' ∧ ctx.Kept ctx'
  | [], fs, sizes, _, slots, _, ctx, _, skimmed, _, _, ran => by
      cases ran
      refine ⟨[], ctx, ?_, ?_, .refl ctx⟩
      · rw [List.append_nil]
      · rwa [List.append_nil, List.append_nil]
  | f :: gs, fs, sizes, i, slots, slots', ctx, s, skimmed, isLocal, fresh, ran => by
      rw [List.append_cons] at isLocal fresh ⊢
      obtain ⟨n, slots₁, ctx₁, ran, skimmed₁, kept⟩ :=
        skimmed.step faithful addressable whole (localFields_append.mp isLocal).1 fresh.before ran
      obtain ⟨more, ctx', rfl, skimmed', kept'⟩ :=
        skimmed_of_scanMembers faithful addressable whole skimmed₁ isLocal fresh ran
      refine ⟨n :: more, ctx', ?_, ?_, kept.trans kept'⟩
      · rw [List.append_cons sizes n more]
      · rwa [List.append_cons sizes n more]

/-! ## Records of slots -/

private theorem ready_nil (shown : Record.unindexed ctx.innermost = []) : Ready defs m [] []
    [] ctx :=
  ⟨trivial, [], [], [], [], rfl, rfl,
    ⟨trivial, List.nil_prefix, ⟨[], [], rfl, trivial, trivial⟩, shown⟩, trivial⟩

private theorem skimmed_nil (shown : Record.unindexed ctx.innermost = []) : Skimmed defs m [] []
    [] ctx :=
  ⟨[], [], [], [], rfl, rfl,
    ⟨trivial, List.nil_prefix, ⟨[], [], rfl, trivial, trivial⟩, shown⟩, trivial⟩

private theorem size_medium (m : Medium) (ctx : Context) (store : LazyStore) :
    Run.size ⟨.medium m, ctx, store⟩ = .ok (m.base + m.data.length) ⟨.medium m, ctx, store⟩ := rfl

theorem scan_of_row (faithful : e.Faithful defs) (addressable : m.Addressable) (isStruct : Bool)
    (path : Path) (inRow : InRow defs [] [] fs row) (isLocal : LocalFields defs [] [] fs)
    (fresh : Fresh [] fs) (at_m : row.bytes <+: m.rest)
    (shown : Record.unindexed ctx.innermost = []) (store : LazyStore) :
    ∃ slots ctx', scan e isStruct (Format.parts e defs fs) path ⟨.medium m, ctx, store⟩ =
        .ok slots ⟨.medium (m.skip row.bytes.length), ctx', store⟩ ∧
      Ready defs m fs row slots ctx' ∧ ctx.Kept ctx' := by
  obtain ⟨slots, ctx', ran, ready, kept⟩ := scanMembers_of_row (i := 0) faithful
    addressable isStruct path store (ready_nil shown) inRow isLocal fresh at_m
  have ran : scanMembers e isStruct path 0 (Format.parts e defs fs) [] ⟨.medium m, ctx, store⟩ =
      .ok slots ⟨.medium (m.skip row.bytes.length), ctx', store⟩ := ran
  have ready : Ready defs m fs row slots ctx' := ready
  unfold scan
  rw [Run.bind_of_ok ran, Run.bind_of_ok (Run.tell_medium _ _ _),
    Run.bind_of_ok (size_medium _ _ _)]
  split
  · obtain ⟨-, first, second, parsed, skipped, rfl, rfl, scanned, skipped_in⟩ := ready
    obtain ⟨slots', ctx'', filling, filled, kept'⟩ := scanned.materialize faithful
      skipped_in fresh at_m (m.pos + (parsed ++ skipped).bytes.length) store
    exact ⟨slots', ctx'', filling, ⟨inRow, _, [], _, [], (List.append_nil _).symm,
      (List.append_nil _).symm, filled, trivial⟩, kept.trans kept'⟩
  · exact ⟨slots, ctx', rfl, ready, kept⟩

/-- The members that are found have sizes, if they are not a row. -/
theorem skimmed_of_scan (faithful : e.Faithful defs) (addressable : m.Addressable)
    (whole : ∀ base, m.backing ≠ .snapshot base) {isStruct : Bool} {path : Path}
    (isLocal : LocalFields defs [] [] fs) (fresh : Fresh [] fs)
    (shown : Record.unindexed ctx.innermost = []) {s : State}
    (ran : scan e isStruct (Format.parts e defs fs) path ⟨.medium m, ctx, store⟩ = .ok slots s) :
    ∃ sizes ctx', s = ⟨.medium (m.skip sizes.sum), ctx', store⟩ ∧
      Skimmed defs m fs sizes slots ctx' ∧ ctx.Kept ctx' := by
  unfold scan at ran
  obtain ⟨slots₁, s₁, scanning, ran⟩ := Run.bind_eq_ok_iff.mp ran
  obtain ⟨sizes, ctx₁, rfl, skimmed, kept⟩ := skimmed_of_scanMembers
    faithful addressable whole (skimmed_nil (m := m) shown) isLocal fresh scanning
  rw [Run.bind_of_ok (Run.tell_medium _ _ _), Run.bind_of_ok (size_medium _ _ _)] at ran
  split at ran
  · obtain ⟨first, second, parsed, skipped, eq, eq', scanned, sized⟩ := skimmed
    have eq : fs = first ++ second := eq
    have eq' : sizes = parsed.sizes ++ skipped := eq'
    subst eq eq'
    obtain ⟨others, ctx₂, rfl, rfl, filled, kept'⟩ := scanned.of_materialize faithful
      addressable sized (localFields_append.mp isLocal).2 fresh ran
    refine ⟨_, ctx₂, rfl, ⟨first ++ second, [], parsed ++ others, [], (List.append_nil _).symm, ?_,
      filled, trivial⟩, kept.trans kept'⟩
    rw [Row.sizes_append, List.append_nil]
    rfl
  · cases ran
    exact ⟨sizes, ctx₁, rfl, skimmed, kept⟩

private theorem snapshot_eq_ok_iff {m : Medium} {limit q : Nat} {path : Path} {data : List UInt8}
    {s : State} :
    Run.snapshot m.pos limit path ⟨.medium (m.moved q), ctx, store⟩ = .ok data s ↔
      limit - m.pos ≤ m.rest.length ∧ data = m.rest.take (limit - m.pos) ∧
        s = ⟨.medium (m.moved q), ctx, store⟩ := by
  have reads : Run.snapshot m.pos limit path ⟨.medium (m.moved q), ctx, store⟩ = .ok data s ↔
      ∃ s', Run.read (limit - m.pos) path ⟨.medium m, ctx, store⟩ = .ok data s' ∧
        (⟨s'.stream.setPos q, s'.context, s'.store⟩ : State) = s := by
    unfold Run.snapshot
    rw [Run.bind_of_ok (Run.tell_medium _ _ _)]
    constructor
    · intro ran
      obtain ⟨_, s₁, moved, ran⟩ := Run.bind_eq_ok_iff.mp ran
      cases moved
      obtain ⟨bytes, s₂, reading, ran⟩ := Run.bind_eq_ok_iff.mp ran
      cases ran
      exact ⟨s₂, reading, rfl⟩
    · rintro ⟨s', reading, rfl⟩
      refine Run.bind_eq_ok_iff.mpr ⟨(), _, rfl, ?_⟩
      exact Run.bind_eq_ok_iff.mpr ⟨data, s', reading, rfl⟩
  rw [reads]
  constructor
  · rintro ⟨s', reading, rfl⟩
    obtain ⟨short, rfl, rfl⟩ := Run.read_eq_ok_iff.mp reading
    exact ⟨short, rfl, rfl⟩
  · rintro ⟨short, rfl, rfl⟩
    exact ⟨_, Run.read_eq_ok_iff.mpr ⟨short, rfl, rfl⟩, rfl⟩

theorem scanRecord_eq_ok_iff {members : List Part} {isStruct : Bool} {path : Path} {n : Nat}
    {ctx' : Context} {handle : Handle} {s : State}
    (scanned : scan e isStruct members path ⟨.medium m, ctx.push [], store⟩ =
      .ok slots ⟨.medium (m.skip n), ctx', store⟩) (kept : (ctx.push []).Kept ctx') :
    scanRecord e isStruct members path ⟨.medium m, ctx, store⟩ = .ok (handle, slots') s ↔
      n ≤ m.rest.length ∧ handle = store.entries.length ∧ slots' = slots ∧
        s = ⟨.medium (m.skip n), ctx,
          (store.add ⟨m.rest.take n, m.pos, ctx', slots, true⟩).2⟩ := by
  have inner : (do let slots ← scan e isStruct members path; return (slots, ← Run.context) : Run _)
      ⟨.medium m, ctx.push [], store⟩ = .ok (slots, ctx') ⟨.medium (m.skip n), ctx', store⟩ :=
    Run.bind_eq_ok_iff.mpr ⟨slots, _, scanned, rfl⟩
  have framed := Run.inFrame_of_ok inner
  rw [Context.pop_of_kept kept] at framed
  unfold scanRecord
  rw [Run.bind_of_ok (Run.tell_medium _ _ _), Run.bind_of_ok framed]
  dsimp only
  rw [Run.bind_of_ok (Run.tell_medium _ _ _), Medium.skip_pos, Medium.skip_eq_moved]
  constructor
  · intro ran
    obtain ⟨data, s₁, copied, ran⟩ := Run.bind_eq_ok_iff.mp ran
    obtain ⟨short, rfl, rfl⟩ := snapshot_eq_ok_iff.mp copied
    cases ran
    rw [Nat.add_sub_cancel_left] at short ⊢
    exact ⟨short, rfl, rfl, rfl⟩
  · rintro ⟨short, rfl, rfl, rfl⟩
    refine Run.bind_eq_ok_iff.mpr ⟨m.rest.take n, ⟨.medium (m.moved (m.pos + n)), ctx, store⟩,
      snapshot_eq_ok_iff.mpr ?_, rfl⟩
    rw [Nat.add_sub_cancel_left]
    exact ⟨short, rfl, rfl⟩

end Codec

end BinaryFormat
