import BinaryFormat.Proofs.Locality.Formats
import BinaryFormat.Proofs.Agreement

/-!
# Members one after the other

What a member of a structure parses to is settled by its bytes and by the values
of the named members before it.  A row lists the bytes and the value of every
member; a structure parses exactly where there is one.
-/

namespace BinaryFormat

/-! ## Frames without the index -/

namespace Record

variable {α : Type}

/-- The entries of a frame but the index that a repeater has noted. -/
def unindexed (fields : Record α) : Record α := fields.filter fun entry => entry.1 != "_index"

theorem unindexed_insert_index (fields : Record α) (v : α) :
    unindexed (insert fields "_index" v) = unindexed fields := by
  induction fields with
  | nil => rfl
  | cons entry rest ih =>
      obtain ⟨key, old⟩ := entry
      by_cases eq : key = "_index"
      · rw [insert, if_pos eq]
        simp [unindexed, eq]
      · rw [insert, if_neg eq]
        simp only [unindexed, List.filter_cons] at ih ⊢
        rw [ih]

theorem unindexed_insert {name : String} (h : name ≠ "_index") (fields : Record α) (v : α) :
    unindexed (insert fields name v) = insert (unindexed fields) name v := by
  induction fields with
  | nil => simp [insert, unindexed, h]
  | cons entry rest ih =>
      obtain ⟨key, old⟩ := entry
      by_cases eq : key = name
      · subst eq
        simp [insert, unindexed, h]
      · by_cases index : key = "_index"
        · rw [insert, if_neg eq]
          simp only [unindexed, List.filter_cons, index] at ih ⊢
          simpa using ih
        · rw [insert, if_neg eq]
          simp only [unindexed, List.filter_cons] at ih ⊢
          simp [index, insert, eq, ih]

theorem unindexed_extend {notes : Record α} (h : ∀ entry ∈ notes, entry.1 = "_index")
    (fields : Record α) : unindexed (extend fields notes) = unindexed fields := by
  induction notes generalizing fields with
  | nil => rfl
  | cons entry rest ih =>
      obtain ⟨key, v⟩ := entry
      obtain rfl : key = "_index" := h (key, v) List.mem_cons_self
      have later := ih (fun other mem => h other (List.mem_cons_of_mem _ mem))
        (insert fields "_index" v)
      exact later.trans (unindexed_insert_index fields v)

theorem get?_unindexed {name : String} (h : name ≠ "_index") (fields : Record α) :
    get? (unindexed fields) name = get? fields name := by
  induction fields with
  | nil => rfl
  | cons entry rest ih =>
      obtain ⟨key, old⟩ := entry
      by_cases eq : key = name
      · subst eq
        simp [unindexed, get?, h]
      · by_cases index : key = "_index"
        · have dropped : unindexed ((key, old) :: rest) = unindexed rest := by
            simp [unindexed, index]
          rw [dropped, ih, get?, if_neg eq]
        · have stays : unindexed ((key, old) :: rest) = (key, old) :: unindexed rest := by
            simp [unindexed, index]
          rw [stays, get?, get?, if_neg eq, if_neg eq, ih]

theorem visible_unindexed (fields : Record α) : visible (unindexed fields) = visible fields := by
  induction fields with
  | nil => rfl
  | cons entry rest ih =>
      obtain ⟨key, old⟩ := entry
      by_cases index : key = "_index"
      · subst index
        have hidden : isPrivate "_index" = true := rfl
        simp only [visible, unindexed, List.filter_cons] at ih ⊢
        simpa [hidden] using ih
      · simp only [visible, unindexed, List.filter_cons] at ih ⊢
        simp only [index, bne_iff_ne, ne_eq, not_false_eq_true, if_true, List.filter_cons]
        rw [ih]

end Record

/-! ## Members that stand somewhere -/

namespace Codec

variable {c : Engine → Codec} {names : List String} {known : Record Value} {ctx : Context}

/-- The frame holds the known values, and nothing lazy under the names. -/
def Shows (names : List String) (known : Record Value) (ctx : Context) : Prop :=
  Reach.Carries [names] [known] [ctx.innermost]

theorem shows_of_unindexed (h : Record.unindexed ctx.innermost = known)
    (eager : Value.EagerFields known) : Shows names known ctx := by
  refine ⟨fun name _ plain v => ?_, trivial⟩
  have other : name ≠ "_index" := by
    rintro rfl
    cases plain
  rw [← Record.get?_unindexed other ctx.innermost, h]
  exact ⟨id, eager.get?⟩

/-- The bytes parse to the value wherever they stand, in every frame that holds the values
known so far. -/
def Stands (c : Engine → Codec) (names : List String) (known : Record Value)
    (bytes : List UInt8) (v : Value) : Prop :=
  v.Eager ∧ ∀ (e : Engine) (path : Path) (ctx : Context) (m : Medium) (store : LazyStore),
    Shows names known ctx → bytes <+: m.rest →
      ∃ notes, Notes (· = "_index") notes ∧ (c e).parse path ⟨.medium m, ctx, store⟩ =
        .ok v ⟨.medium (m.skip bytes.length), ctx.extend notes, store⟩

/-- A frame that agrees with the known values as far as the names are concerned. -/
def AgreesOn (names : List String) (known : Record Value) (ctx : Context) : Prop :=
  ∀ name ∈ names, Record.isReserved name = false →
    Record.get? ctx.innermost name = Record.get? known name

theorem carries_of_agreesOn {ctx' : Context} (h : AgreesOn names known ctx)
    (shows' : Shows names known ctx') : Reach.Carries [names] ctx.frames ctx'.frames := by
  refine ⟨fun name mem plain v => ?_, trivial⟩
  show (Record.get? ctx.innermost name = some v → _) ∧ _
  rw [h name mem plain]
  exact shows'.1 name mem plain v

theorem Local.stands (h : Local [names] c) (agrees : AgreesOn names known ctx)
    (eager : Value.EagerFields known) {e : Engine} {path : Path} {m : Medium}
    {store : LazyStore} {v : Value} {s : State}
    (ran : (c e).parse path ⟨.medium m, ctx, store⟩ = .ok v s) :
    ∃ n notes, s = ⟨.medium (m.skip n), ctx.extend notes, store⟩ ∧ n ≤ m.rest.length ∧
      Notes (· = "_index") notes ∧ Stands c names known (m.rest.take n) v ∧
      (n ≤ Value.maxSize → ∀ k, HasSize c ctx k → n = k) := by
  have self : Reach.Carries [names] ctx.frames ctx.frames := by
    refine ⟨fun name mem plain w => ⟨id, fun found => ?_⟩, trivial⟩
    have found : Record.get? ctx.innermost name = some w := found
    rw [agrees name mem plain] at found
    exact eager.get? found
  obtain ⟨n, notes, left, short, yields, noted, -⟩ := h.parse self e e path path m store v s ran
  refine ⟨n, notes, left, short, noted, ⟨yields.1, fun e' path' ctx' m' store' shows' at_m' => ?_⟩,
    yields.2⟩
  have size : (m.rest.take n).length = n := by
    rw [List.length_take, Nat.min_eq_left short]
  obtain ⟨n', notes', left', -, -, noted', again⟩ :=
    h.parse (carries_of_agreesOn agrees shows') e e' path path' m store v s ran
  have same : n' = n := by
    rw [left] at left'
    have streams := congrArg (fun s => s.stream.pos) left'
    simp only [Stream.pos, Medium.skip_pos] at streams
    omega
  subst same
  refine ⟨notes', noted', ?_⟩
  rw [size]
  exact again m' store' at_m'

/-! ## Rows -/

/-- The bytes and the value of every member. -/
abbrev Row : Type := List (List UInt8 × Value)

namespace Row

def bytes (row : Row) : List UInt8 := (row.map Prod.fst).flatten

def values (row : Row) : List Value := row.map Prod.snd

@[simp] theorem bytes_nil : bytes [] = [] := rfl

@[simp] theorem bytes_cons (data : List UInt8) (v : Value) (row : Row) :
    bytes ((data, v) :: row) = data ++ bytes row := rfl

@[simp] theorem values_cons (data : List UInt8) (v : Value) (row : Row) :
    values ((data, v) :: row) = v :: values row := rfl

theorem bytes_append (row row' : Row) : bytes (row ++ row') = bytes row ++ bytes row' := by
  simp [bytes]

theorem values_append (row row' : Row) : values (row ++ row') = values row ++ values row' := by
  simp [values]

end Row

/-- The names of members. -/
def namesOf (fs : List Format) : List String := fs.filterMap Format.name?

/-- The values of the members that have a name, in order. -/
def entriesOf : List Format → List Value → Record Value
  | f :: fs, v :: vs => entryOf f.name? v ++ entriesOf fs vs
  | _, _ => []

/-- The names are public, and no two of them are the same. -/
structure Fresh (known : Record Value) (fs : List Format) : Prop where
  distinct : (Record.keys known ++ namesOf fs).Nodup
  shown : ∀ name ∈ namesOf fs, Record.isPrivate name = false

theorem namesOf_cons (f : Format) (fs : List Format) :
    namesOf (f :: fs) = f.name?.toList ++ namesOf fs := by
  unfold namesOf
  rw [List.filterMap_cons]
  cases f.name? <;> rfl

theorem keys_entryOf (name : Option String) (v : Value) :
    Record.keys (entryOf name v) = name.toList := by
  cases name <;> rfl

theorem keys_append (first second : Record Value) :
    Record.keys (first ++ second) = Record.keys first ++ Record.keys second :=
  List.map_append

theorem Fresh.rest {f : Format} {fs : List Format} (h : Fresh known (f :: fs)) (v : Value) :
    Fresh (known ++ entryOf f.name? v) fs := by
  obtain ⟨distinct, shown⟩ := h
  rw [namesOf_cons] at distinct shown
  refine ⟨?_, fun name mem => shown name (List.mem_append_right _ mem)⟩
  rwa [keys_append, keys_entryOf, List.append_assoc]

theorem eager_append {first second : Record Value} (h : Value.EagerFields first)
    (h' : Value.EagerFields second) : Value.EagerFields (first ++ second) := by
  rw [Value.eagerFields_iff] at h h' ⊢
  intro entry mem
  rcases List.mem_append.mp mem with mem | mem
  · exact h entry mem
  · exact h' entry mem

theorem unindexed_entryOf {f : Format} {fs : List Format} (h : Fresh known (f :: fs))
    (same : Record.unindexed ctx.innermost = known) (v : Value) :
    Record.unindexed (ctx.extend (entryOf f.name? v)).innermost =
      known ++ entryOf f.name? v := by
  obtain ⟨distinct, shown⟩ := h
  rw [namesOf_cons] at distinct shown
  cases named : f.name? with
  | none =>
      have nothing : entryOf none v = [] := rfl
      rw [nothing, List.append_nil, Context.extend_nil, same]
  | some name =>
      rw [named] at distinct shown
      have other : name ≠ "_index" := by
        rintro rfl
        have visible := shown "_index" List.mem_cons_self
        cases visible
      have new : name ∉ Record.keys known := fun mem =>
        (List.nodup_append.mp distinct).2.2 name mem name List.mem_cons_self rfl
      show Record.unindexed (Record.insert ctx.innermost name v) = known ++ [(name, v)]
      rw [Record.unindexed_insert other, same, Record.insert_of_not_mem new]

/-- Members that stand one after the other, each seeing the named ones before it. -/
def InRow (defs : Definitions) : List String → Record Value → List Format → Row → Prop
  | _, _, [], [] => True
  | names, known, f :: fs, (bytes, v) :: row =>
      Stands (fun e => f.codec e defs) names known bytes v ∧
        InRow defs (f.name?.toList ++ names) (known ++ entryOf f.name? v) fs row
  | _, _, _, _ => False

/-! ## Parsing a row -/

variable {defs : Definitions} {place : Nat → Option String → Path} {store : LazyStore}

theorem agreesOn_of_unindexed (h : Record.unindexed ctx.innermost = known) :
    AgreesOn names known ctx := by
  intro name _ plain
  have other : name ≠ "_index" := by
    rintro rfl
    cases plain
  rw [← h, Record.get?_unindexed other]

/-- Members that parse make up a row. -/
theorem row_of_parseMembers {e : Engine} : ∀ {fs : List Format} {names : List String}
    {known : Record Value} {i : Nat} {m : Medium} {ctx : Context} {vs : List Value} {s : State},
      LocalFields defs [] names fs → Fresh known fs → Value.EagerFields known →
      Record.unindexed ctx.innermost = known →
      parseMembers place i (Format.parts e defs fs) ⟨.medium m, ctx, store⟩ = .ok vs s →
        ∃ row : Row, InRow defs names known fs row ∧ row.values = vs ∧
          row.bytes <+: m.rest ∧ s.stream = .medium (m.skip row.bytes.length) ∧
          s.store = store ∧ ctx.Kept s.context ∧
          Record.unindexed s.context.innermost = known ++ entriesOf fs vs
  | [], _, _, _, _, ctx, _, _, _, _, _, same, ran => by
      cases ran
      refine ⟨[], trivial, rfl, List.nil_prefix, rfl, rfl, .refl ctx, ?_⟩
      rw [same]
      exact (List.append_nil _).symm
  | f :: rest, names, known, i, m, ctx, vs, s, h, fresh, eager, same, ran => by
      obtain ⟨-, here, later⟩ := h
      obtain ⟨v, s₁, first, ran⟩ := Run.bind_eq_ok_iff.mp ran
      -- A local member takes a number of bytes and notes no more than an index, so the others start
      -- from known names.
      obtain ⟨n, notes, rfl, short, noted, stands, -⟩ :=
        here.stands (agreesOn_of_unindexed same) eager (Run.tagged_eq_ok_iff.mp first)
      rw [Run.bind_of_ok (noteItem_apply _ v _)] at ran
      obtain ⟨values, s₂, others, last⟩ := Run.bind_eq_ok_iff.mp ran
      cases last
      have index : Record.unindexed (ctx.extend notes).innermost = known := by
        rw [Context.innermost_extend,
          Record.unindexed_extend (fun entry mem => (noted entry mem).2), same]
      obtain ⟨row, inRow, rfl, at_m, stream, stored, kept, left⟩ :=
        row_of_parseMembers later (fresh.rest v)
          (eager_append eager (notes_entryOf f.name? stands.1).eager)
          (unindexed_entryOf fresh index v) others
      have size : (m.rest.take n).length = n := by
        rw [List.length_take, Nat.min_eq_left short]
      refine ⟨(m.rest.take n, v) :: row, ⟨stands, inRow⟩, rfl, ?_, ?_, stored, ?_, ?_⟩
      · rw [Medium.rest_skip_of_le short] at at_m
        obtain ⟨tail, eq⟩ := at_m
        refine ⟨tail, ?_⟩
        rw [Row.bytes_cons, List.append_assoc, eq, List.take_append_drop]
      · rw [stream, Medium.skip_skip, Row.bytes_cons, List.length_append, size]
      · exact ((ctx.kept_extend notes).trans (Context.kept_extend _ _)).trans kept
      · rw [left]
        exact (List.append_assoc _ _ _)

/-- A row is parsed wherever its bytes stand. -/
theorem parseMembers_of_row {e : Engine} (place : Nat → Option String → Path)
    (store : LazyStore) : ∀ {fs : List Format} {row : Row}
    {names : List String} {known : Record Value} {i : Nat} {m : Medium} {ctx : Context},
      InRow defs names known fs row → Fresh known fs → Value.EagerFields known →
      Record.unindexed ctx.innermost = known → row.bytes <+: m.rest →
        ∃ ctx', parseMembers place i (Format.parts e defs fs) ⟨.medium m, ctx, store⟩ =
            .ok row.values ⟨.medium (m.skip row.bytes.length), ctx', store⟩ ∧
          ctx.Kept ctx' ∧ Record.unindexed ctx'.innermost = known ++ entriesOf fs row.values
  | [], [], _, _, _, _, ctx, _, _, _, same, _ =>
      ⟨ctx, rfl, .refl ctx, same.trans (List.append_nil _).symm⟩
  | f :: rest, (bytes, v) :: row, names, known, i, m, ctx, h, fresh, eager, same, at_m => by
      obtain ⟨stands, later⟩ := h
      have here : bytes <+: m.rest := (List.prefix_append bytes (Row.bytes row)).trans at_m
      obtain ⟨notes, noted, parsed⟩ := stands.2 e (place i f.name?) ctx m store
        (shows_of_unindexed same eager) here
      have index : Record.unindexed (ctx.extend notes).innermost = known := by
        rw [Context.innermost_extend,
          Record.unindexed_extend (fun entry mem => (noted entry mem).2), same]
      have there : Row.bytes row <+: (m.skip bytes.length).rest := by
        obtain ⟨tail, eq⟩ := at_m
        refine ⟨tail, ?_⟩
        rw [Medium.rest_skip_of_le here.length_le, ← eq, Row.bytes_cons, List.append_assoc,
          List.drop_left]
      obtain ⟨ctx', others, kept, left⟩ :=
        parseMembers_of_row (e := e) (i := i + 1) place store later
        (fresh.rest v) (eager_append eager (notes_entryOf f.name? stands.1).eager)
        (unindexed_entryOf fresh index v) there
      refine ⟨ctx', ?_, ((ctx.kept_extend notes).trans (Context.kept_extend _ _)).trans kept, ?_⟩
      · refine Run.bind_eq_ok_iff.mpr ⟨v, _, Run.tagged_of_ok parsed, ?_⟩
        rw [Run.bind_of_ok (noteItem_apply _ v _)]
        refine Run.bind_eq_ok_iff.mpr ⟨Row.values row, _, others, ?_⟩
        rw [Medium.skip_skip, Row.bytes_cons, List.length_append]
        rfl
      · rw [left]
        exact (List.append_assoc _ _ _)

end Codec

end BinaryFormat
