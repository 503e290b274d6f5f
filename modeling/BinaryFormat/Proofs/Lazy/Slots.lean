import BinaryFormat.Proofs.Lazy.Rows

/-!
# Slots of members

A lazy structure keeps a slot for every member: those that are parsed hold their
value, and those that are skipped are parsed one after the other once a member
behind them needs them.
-/

namespace BinaryFormat

private theorem Record.get?_append_of_eq_some {α : Type} {fields : Record α} {name : String} {v : α}
    (h : get? fields name = some v) (more : Record α) : get? (fields ++ more) name = some v := by
  induction fields with
  | nil => cases h
  | cons entry rest ih =>
      obtain ⟨key, old⟩ := entry
      by_cases eq : key = name
      · rw [get?, if_pos eq] at h
        rw [List.cons_append, get?, if_pos eq, h]
      · rw [get?, if_neg eq] at h
        rw [List.cons_append, get?, if_neg eq, ih h]

namespace Medium

/-- The byte string at another position. -/
def moved (m : Medium) (pos : Nat) : Medium := { m with pos := pos }

theorem skip_eq_moved (m : Medium) (n : Nat) : m.skip n = m.moved (m.pos + n) := rfl

theorem skip_moved (m : Medium) (p n : Nat) : (m.moved p).skip n = m.moved (p + n) := rfl

theorem length_rest_le (m : Medium) : m.rest.length ≤ m.data.length := by
  unfold rest
  split
  · exact Nat.zero_le _
  · rw [List.length_drop]
    exact Nat.sub_le _ _

theorem rest_moved {m : Medium} {n : Nat} (h : n ≤ m.rest.length) :
    (m.moved (m.pos + n)).rest = m.rest.drop n := rest_skip_of_le h

end Medium

namespace Engine

/-- Formats that are run later mean what they mean, and members without lazy parts are forced
as they are. -/
structure Faithful (e : Engine) (defs : Definitions) : Prop where
  parse : ∃ inner : Engine, ∀ f path, e.parse f path = (f.codec inner defs).parse path
  force : ∀ v : Value, v.Eager → e.forceMember v = pure v

theorem faithful_level (defs : Definitions) (n : Nat) : (level defs (n + 1)).Faithful defs where
  parse := ⟨level defs n, fun _ _ => rfl⟩
  force _ h := force_of_eager _ h

end Engine

namespace Codec

variable {defs : Definitions} {e : Engine} {names : List String} {known : Record Value}
  {ctx : Context} {m : Medium} {store : LazyStore}

/-! ## Members in two parts -/

/-- The names within reach behind members. -/
def namesAfter (names : List String) (fs : List Format) : List String :=
  fs.foldl (fun names f => f.name?.toList ++ names) names

theorem namesAfter_append (names : List String) (fs gs : List Format) :
    namesAfter names (fs ++ gs) = namesAfter (namesAfter names fs) gs := List.foldl_append

theorem localFields_append {near : Reach} : ∀ {fs gs : List Format} {names : List String},
    LocalFields defs near names (fs ++ gs) ↔
      LocalFields defs near names fs ∧ LocalFields defs near (namesAfter names fs) gs
  | [], gs, names => ⟨fun h => ⟨trivial, h⟩, fun h => h.2⟩
  | f :: fs, gs, names => by
      have later : LocalFields defs near (f.name?.toList ++ names) (fs ++ gs) ↔
          LocalFields defs near (f.name?.toList ++ names) fs ∧
            LocalFields defs near (namesAfter (f.name?.toList ++ names) fs) gs := localFields_append
      constructor
      · rintro ⟨plain, here, rest⟩
        exact ⟨⟨plain, here, (later.mp rest).1⟩, (later.mp rest).2⟩
      · rintro ⟨⟨plain, here, rest⟩, last⟩
        exact ⟨plain, here, later.mpr ⟨rest, last⟩⟩

theorem InRow.length_eq : ∀ {fs : List Format} {row : Row} {names : List String}
    {known : Record Value}, InRow defs names known fs row → fs.length = row.values.length
  | [], [], _, _, _ => rfl
  | _ :: _, (_, _) :: _, _, _, h => congrArg (· + 1) h.2.length_eq

theorem entriesOf_append : ∀ {fs : List Format} {vs : List Value}, fs.length = vs.length →
    ∀ (gs : List Format) (ws : List Value),
      entriesOf (fs ++ gs) (vs ++ ws) = entriesOf fs vs ++ entriesOf gs ws
  | [], [], _, _, _ => rfl
  | f :: fs, v :: vs, h, gs, ws => by
      have later := entriesOf_append (Nat.succ.inj h) gs ws
      simp only [List.cons_append, entriesOf, later, List.append_assoc]

private theorem keys_entriesOf : ∀ {fs : List Format} {vs : List Value}, fs.length = vs.length →
    Record.keys (entriesOf fs vs) = namesOf fs
  | [], [], _ => rfl
  | f :: fs, v :: vs, h => by
      rw [entriesOf, keys_append, keys_entryOf, keys_entriesOf (Nat.succ.inj h), namesOf_cons]

theorem InRow.append : ∀ {fs : List Format} {row : Row} {names : List String}
    {known : Record Value}, InRow defs names known fs row →
      ∀ {gs : List Format} {others : Row},
        InRow defs (namesAfter names fs) (known ++ entriesOf fs row.values) gs others →
          InRow defs names known (fs ++ gs) (row ++ others)
  | [], [], names, known, _, gs, others, h => by
      have same : known ++ entriesOf [] (Row.values []) = known := List.append_nil known
      rwa [same] at h
  | f :: fs, (bytes, v) :: row, names, known, ⟨stands, later⟩, gs, others, h => by
      refine ⟨stands, later.append ?_⟩
      rw [List.append_assoc]
      exact h

theorem InRow.eager : ∀ {fs : List Format} {row : Row} {names : List String}
    {known : Record Value}, InRow defs names known fs row →
      Value.EagerFields (entriesOf fs row.values)
  | [], [], _, _, _ => trivial
  | f :: _, _ :: _, _, _, ⟨stands, later⟩ =>
      eager_append (notes_entryOf f.name? stands.1).eager later.eager

private theorem namesOf_append (fs gs : List Format) :
    namesOf (fs ++ gs) = namesOf fs ++ namesOf gs :=
  List.filterMap_append

theorem Fresh.after {fs gs : List Format} (h : Fresh known (fs ++ gs)) {vs : List Value}
    (length : fs.length = vs.length) : Fresh (known ++ entriesOf fs vs) gs := by
  obtain ⟨distinct, shown⟩ := h
  rw [namesOf_append] at distinct shown
  refine ⟨?_, fun name mem => shown name (List.mem_append_right _ mem)⟩
  rwa [keys_append, keys_entriesOf length, List.append_assoc]

theorem Fresh.before {fs gs : List Format} (h : Fresh known (fs ++ gs)) : Fresh known fs := by
  obtain ⟨distinct, shown⟩ := h
  rw [namesOf_append] at distinct shown
  refine ⟨?_, fun name mem => shown name (List.mem_append_left _ mem)⟩
  rw [← List.append_assoc] at distinct
  exact (List.nodup_append.mp distinct).1

/-! ## Known sizes -/

/-- The size is so large in every frame that holds the known values. -/
def Sized (c : Engine → Codec) (names : List String) (known : Record Value) (n : Nat) : Prop :=
  ∀ ctx, Shows names known ctx → HasSize c ctx n

variable {c : Engine → Codec}

theorem Local.sized (h : Local [names] c) {n : Nat} (agrees : AgreesOn names known ctx)
    (size : HasSize c ctx n) : Sized c names known n :=
  fun _ shows' => size.carried h (carries_of_agreesOn agrees shows')

theorem Sized.append {n : Nat} (h : Sized c names known n) (more : Record Value) :
    Sized c names (known ++ more) n := by
  intro ctx shows'
  refine h ctx ⟨fun name mem plain v => ⟨fun found => ?_, (shows'.1 name mem plain v).2⟩, trivial⟩
  exact (shows'.1 name mem plain v).1 (Record.get?_append_of_eq_some found more)

theorem Stands.length_eq {bytes : List UInt8} {v : Value} {n : Nat}
    (h : Stands c names known bytes v) (here : Local [names] c) (size : Sized c names known n)
    (eager : Value.EagerFields known) (room : bytes.length ≤ Value.maxSize) :
    bytes.length = n := by
  -- A frame that holds just the known values, over just these bytes.
  let alone : Context := ⟨⟨known, []⟩, []⟩
  let m : Medium := ⟨.fixed, bytes, 0⟩
  have shows' : Shows names known alone :=
    ⟨fun name _ _ w => ⟨id, fun found => eager.get? found⟩, trivial⟩
  have agrees : AgreesOn names known alone := fun _ _ _ => rfl
  obtain ⟨notes, -, parsed⟩ := h.2 Engine.exhausted .this alone m LazyStore.empty shows'
    (show bytes <+: m.rest from List.prefix_rfl)
  obtain ⟨k, others, left, -, -, -, sizes⟩ := here.stands agrees eager parsed
  have position := congrArg (fun s : State => s.stream.pos) left
  simp only [Stream.pos, Medium.skip_pos, Nat.add_left_cancel_iff] at position
  rw [position] at room ⊢
  exact sizes room n (size alone shows')

/-- The sizes of members that were skipped. -/
def InSizes (defs : Definitions) (known : Record Value) : List String → List Format →
    List Nat → Prop
  | _, [], [] => True
  | names, f :: fs, n :: sizes =>
      Sized (fun e => f.codec e defs) names known n ∧
        InSizes defs known (f.name?.toList ++ names) fs sizes
  | _, _, _ => False

/-! ## Slots one after the other -/

/-- The slot of a member that starts at an offset. -/
structure IsSlot (f : Format) (offset : Nat) (cache : Option Value) (slot : Slot) : Prop where
  name : slot.name = f.name?
  offset : slot.offset = offset
  format : slot.format = f
  index : slot.index = none
  cache : slot.cache = cache

/-- What is known of a member: how many bytes it takes and perhaps its value. -/
abbrev Marks : Type := List (Nat × Option Value)

namespace Row

/-- The marks of members that are parsed. -/
def parsed (row : Row) : Marks := row.map fun (bytes, v) => (bytes.length, some v)

def sizes (row : Row) : List Nat := row.map fun entry => entry.1.length

theorem sum_sizes (row : Row) : (sizes row).sum = (bytes row).length := by
  simp [sizes, bytes, Function.comp_def]

end Row

/-- The marks of members that are skipped. -/
def unparsed (sizes : List Nat) : Marks := sizes.map fun n => (n, none)

/-- The slots of members one after the other, from an offset on. -/
def SlotsAt : Nat → List Format → Marks → List Slot → Prop
  | _, [], [], [] => True
  | offset, f :: fs, (n, cache) :: marks, slot :: slots =>
      IsSlot f offset cache slot ∧ SlotsAt (offset + n) fs marks slots
  | _, _, _, _ => False

theorem SlotsAt.append : ∀ {fs : List Format} {marks : Marks} {slots : List Slot} {offset : Nat},
    SlotsAt offset fs marks slots → ∀ {gs : List Format} {others : Marks} {more : List Slot},
      SlotsAt (offset + (marks.map Prod.fst).sum) gs others more →
        SlotsAt offset (fs ++ gs) (marks ++ others) (slots ++ more)
  | [], [], [], _, _, _, _, _, h => h
  | _ :: _, (n, _) :: marks, _ :: _, offset, ⟨here, later⟩, gs, others, more, h => by
      refine ⟨here, later.append ?_⟩
      rwa [List.map_cons, List.sum_cons, ← Nat.add_assoc] at h

/-! ## Parsing what was skipped -/

theorem fillSlots_parsed (e : Engine) (more : List Slot) : ∀ {fs : List Format} {row : Row}
    {slots : List Slot} {offset : Nat}, SlotsAt offset fs row.parsed slots →
      fillSlots e (slots ++ more) = (slots ++ ·) <$> fillSlots e more
  | [], [], [], _, _ => (id_map _).symm
  | _ :: _, _ :: _, slot :: slots, _, ⟨here, later⟩ => by
      rw [List.cons_append, fillSlots, here.cache, fillSlots_parsed e more later]
      simp only [map_eq_pure_bind, bind_assoc, pure_bind, List.cons_append]

private theorem fillSlots_unparsed (e : Engine) {f : Format} {offset : Nat} {slot : Slot}
    (h : IsSlot f offset none slot) (rest : List Slot) :
    fillSlots e (slot :: rest) = do
      Run.goTo offset
      let v ← Run.tagged (e.parse f slot.path)
      Run.modifyContext (·.extend (entryOf f.name? v))
      return { slot with cache := some v } :: (← fillSlots e rest) := by
  rw [fillSlots, h.cache, h.format, h.offset]
  simp only [← h.name]
  cases slot.name <;> rfl

/-- Skipped members are parsed where their bytes stand. -/
theorem fillSlots_of_row (faithful : e.Faithful defs) (store : LazyStore) :
    ∀ {fs : List Format} {row : Row}
    {slots : List Slot} {offset : Nat} {names : List String} {known : Record Value} {p : Nat}
    {ctx : Context}, SlotsAt offset fs (unparsed row.sizes) slots →
      InRow defs names known fs row → Fresh known fs → Value.EagerFields known →
      Record.unindexed ctx.innermost = known → row.bytes <+: (m.moved offset).rest →
        ∃ slots' ctx' q, fillSlots e slots ⟨.medium (m.moved p), ctx, store⟩ =
            .ok slots' ⟨.medium (m.moved q), ctx', store⟩ ∧
          SlotsAt offset fs row.parsed slots' ∧ ctx.Kept ctx' ∧
          Record.unindexed ctx'.innermost = known ++ entriesOf fs row.values
  | [], [], [], _, _, _, p, ctx, _, _, _, _, same, _ =>
      ⟨[], ctx, p, rfl, trivial, .refl ctx, same.trans (List.append_nil _).symm⟩
  | f :: fs, (bytes, v) :: row, slot :: slots, offset, names, known, p, ctx, ⟨here, rest⟩,
      ⟨stands, later⟩, fresh, eager, same, at_m => by
      obtain ⟨inner, means⟩ := faithful.parse
      have first : bytes <+: (m.moved offset).rest :=
        (List.prefix_append bytes (Row.bytes row)).trans at_m
      obtain ⟨notes, noted, parsed⟩ := stands.2 inner slot.path ctx (m.moved offset) store
        (shows_of_unindexed same eager) first
      have index : Record.unindexed (ctx.extend notes).innermost = known := by
        rw [Context.innermost_extend,
          Record.unindexed_extend (fun entry mem => (noted entry mem).2), same]
      have there : Row.bytes row <+: (m.moved (offset + bytes.length)).rest := by
        obtain ⟨tail, eq⟩ := at_m
        refine ⟨tail, ?_⟩
        have moved := Medium.rest_skip_of_le first.length_le
        rw [Medium.skip_moved] at moved
        rw [moved, ← eq, Row.bytes_cons, List.append_assoc, List.drop_left]
      -- The member is noted in front of the others, which then start from what is known with it.
      obtain ⟨slots', ctx', q, others, marked, kept, left⟩ :=
        fillSlots_of_row faithful store (p := offset + bytes.length) rest later (fresh.rest v)
          (eager_append eager (notes_entryOf f.name? stands.1).eager)
          (unindexed_entryOf fresh index v) there
      refine ⟨{ slot with cache := some v } :: slots', ctx', q, ?_, ⟨?_, marked⟩, ?_, ?_⟩
      · rw [fillSlots_unparsed e here, means]
        refine Run.bind_eq_ok_iff.mpr ⟨(), _, rfl, ?_⟩
        refine Run.bind_eq_ok_iff.mpr ⟨v, _, Run.tagged_of_ok parsed, ?_⟩
        refine Run.bind_eq_ok_iff.mpr ⟨(), _, rfl, ?_⟩
        exact Run.bind_eq_ok_iff.mpr ⟨slots', _, others, rfl⟩
      · exact ⟨here.name, here.offset, here.format, here.index, rfl⟩
      · exact ((ctx.kept_extend notes).trans (Context.kept_extend _ _)).trans kept
      · rw [left]
        exact (List.append_assoc _ _ _)

/-- Skipped members that parse make up a row of the sizes that were skipped. -/
theorem row_of_fillSlots (faithful : e.Faithful defs) (room : m.data.length ≤ Value.maxSize) :
    ∀ {fs : List Format}
    {sizes : List Nat} {slots slots' : List Slot} {offset : Nat} {names : List String}
    {before known : Record Value} {p : Nat} {ctx : Context} {s : State},
      SlotsAt offset fs (unparsed sizes) slots → InSizes defs before names fs sizes →
      before <+: known → LocalFields defs [] names fs → Fresh known fs →
      Value.EagerFields known → Record.unindexed ctx.innermost = known →
      fillSlots e slots ⟨.medium (m.moved p), ctx, store⟩ = .ok slots' s →
        ∃ row : Row, row.sizes = sizes ∧ InRow defs names known fs row ∧
          row.bytes <+: (m.moved offset).rest ∧ SlotsAt offset fs row.parsed slots' ∧
          ∃ ctx' q, s = ⟨.medium (m.moved q), ctx', store⟩ ∧ ctx.Kept ctx' ∧
            Record.unindexed ctx'.innermost = known ++ entriesOf fs row.values
  | [], [], [], _, _, _, _, _, p, ctx, _, _, _, _, _, _, _, same, ran => by
      cases ran
      exact ⟨[], rfl, trivial, List.nil_prefix, trivial, ctx, p, rfl, .refl ctx,
        same.trans (List.append_nil _).symm⟩
  | f :: fs, n :: sizes, slot :: slots, slots', offset, names, before, known, p, ctx, s,
      ⟨here, rest⟩, ⟨sized, others⟩, part, ⟨_, isLocal, later⟩, fresh, eager, same, ran => by
      obtain ⟨inner, means⟩ := faithful.parse
      obtain ⟨more, rfl⟩ := part
      rw [fillSlots_unparsed e here, means] at ran
      obtain ⟨_, s₁, moved, ran⟩ := Run.bind_eq_ok_iff.mp ran
      cases moved
      obtain ⟨v, s₂, first, ran⟩ := Run.bind_eq_ok_iff.mp ran
      have first : ((fun e => f.codec e defs) inner).parse slot.path
          ⟨.medium (m.moved offset), ctx, store⟩ = .ok v s₂ := Run.tagged_eq_ok_iff.mp first
      obtain ⟨k, notes, rfl, short, noted, stands, size⟩ :=
        isLocal.stands (agreesOn_of_unindexed same) eager first
      -- The member takes as many bytes as its size says, so the next slot is where the member has
      -- ended.
      obtain rfl : k = n :=
        size (short.trans ((m.moved offset).length_rest_le.trans room)) n
          (sized.append more ctx (shows_of_unindexed same eager))
      obtain ⟨_, s₃, entered, ran⟩ := Run.bind_eq_ok_iff.mp ran
      cases entered
      obtain ⟨filled, s₄, last, ran⟩ := Run.bind_eq_ok_iff.mp ran
      cases ran
      have index : Record.unindexed (ctx.extend notes).innermost = before ++ more := by
        rw [Context.innermost_extend,
          Record.unindexed_extend (fun entry mem => (noted entry mem).2), same]
      rw [Medium.skip_moved] at last
      obtain ⟨row, rfl, inRow, at_m, marked, ctx', q, rfl, kept, left⟩ :=
        row_of_fillSlots faithful room rest others
          ((List.prefix_append before more).trans (List.prefix_append _ _)) later (fresh.rest v)
          (eager_append eager (notes_entryOf f.name? stands.1).eager)
          (unindexed_entryOf fresh index v) last
      have length : ((m.moved offset).rest.take k).length = k := by
        rw [List.length_take, Nat.min_eq_left short]
      refine ⟨((m.moved offset).rest.take k, v) :: row, ?_, ⟨stands, inRow⟩, ?_, ⟨?_, ?_⟩, ctx',
        q, rfl, ((ctx.kept_extend notes).trans (Context.kept_extend _ _)).trans kept, ?_⟩
      · rw [Row.sizes, List.map_cons, length]
        rfl
      · have rest := Medium.rest_skip_of_le short
        rw [Medium.skip_moved] at rest
        rw [rest] at at_m
        obtain ⟨tail, eq⟩ := at_m
        refine ⟨tail, ?_⟩
        rw [Row.bytes_cons, List.append_assoc, eq, List.take_append_drop]
      · exact ⟨here.name, here.offset, here.format, here.index, rfl⟩
      · rw [length]
        exact marked
      · rw [left]
        exact (List.append_assoc _ _ _)

end Codec

end BinaryFormat
