import BinaryFormat.Proofs.Filling.Components

/-!
# Structures that are parsed as they were built

Fields and items take their bytes one after another, over frames that show the
same of what is in front.  When a structure is left, the patches that can be
computed are applied and noted in its frame; the others wait outside.
-/

namespace BinaryFormat

namespace Format

private theorem mem_of_fieldReaches {fs : List Format} {key : String} {steps : List Value.Step}
    (h : FieldReaches fs key steps) : key ∈ fieldNames fs := by
  induction fs with
  | nil => simp only [FieldReaches] at h
  | cons f rest ih =>
      simp only [FieldReaches] at h
      exact mem_fieldNames_cons.mpr (h.imp And.left ih)

/-! ## Fields -/

/-- What is left when fields have been built: patches of theirs, and what is noted of them. -/
structure Gathered (names : List String) (fs : List Format) (start stop : Nat)
    (new : List Deferred) (ctx ctx' : Context) : Prop where
  below : ctx'.below = ctx.below
  deferred : ctx'.top.deferred = ctx.top.deferred ++ new
  tidy : Tidy start stop new
  own : ∀ d ∈ new, d.scopes = [] → ∀ key ∈ names, d.path.fieldName? = some key →
    key ∈ fieldNames fs ∧ ∀ ns, FieldReaches fs key ns → ns = []
  distinct : (Record.keys ctx.innermost).Nodup → (Record.keys ctx'.innermost).Nodup
  others : ∀ key ∉ fieldNames fs, Record.get? ctx'.innermost key = Record.get? ctx.innermost key
  shows : ∀ key ∈ fieldNames fs, ∃ w : Value, Record.get? ctx'.innermost key = some w ∧
    ∀ ns, FieldReaches fs key ns → ∃ x, w.reach ns = some x

/-- The fields are parsed from these bytes as what the record shows of them. -/
def Regained (e : Engine) (defs : Definitions) (sources : List (Record Format))
    (front : Record Format) (fs : List Format) (built : Context) (start : Nat) (data : List UInt8)
    (record : Record Value) : Prop :=
  ∀ (overwrite : Bool) (m : Medium) (suffix : List UInt8) (ctx : Context) (store : LazyStore)
    (path : Path), m.pos = start → m.rest = data ++ suffix →
    Matches (front :: sources) built.frames ctx.frames →
    ∃ ctx', Codec.parseFields overwrite false path (parts e defs fs) ⟨.medium m, ctx, store⟩ =
        .ok () ⟨.medium (m.skip data.length), ctx', store⟩ ∧ ctx.Kept ctx' ∧
      ((Record.keys ctx.innermost).Nodup → (Record.keys ctx'.innermost).Nodup) ∧
      (∀ key ∉ fieldNames fs, Record.isPrivate key = false →
        Record.get? ctx'.innermost key = Record.get? ctx.innermost key) ∧
      ∀ key ∈ fieldNames fs, Record.isPrivate key = false →
        ∃ w p : Value, Record.get? record key = some w ∧
          Record.get? ctx'.innermost key = some p ∧ w.FillsTo p

/-- Every patch of the fields is known when the structure is complete, and is noted then. -/
structure FieldsInTime (defs : Definitions) (later : List (Record Format)) (fs : List Format)
    (start : Nat) (part : List UInt8) (new : List Deferred) (ctx ctx' : Context) : Prop where
  waits : ∀ d ∈ new, d.scopes = [] ∧ d.depth = ctx.below.length ∧
    ∃ expr, d.patch = .value expr ∧ Known later expr
  shows : ∀ key ∈ fieldNames fs, ∃ w : Value, Record.get? ctx'.innermost key = some w ∧
    (w.isFilled = true ∨ w = .none ∧ ∃ d ∈ new, d.path.fieldName? = some key)
  current : ∀ final record, Firm defs start part new final →
    (∀ key ∈ fieldNames fs, EndsAs defs new final ctx'.innermost record key) →
    (∀ key ∈ fieldNames fs, Record.get? record key ≠ some .none) → FieldsUpToDate final fs record

/-- Fields fulfil together what one component does: the record is what the frame becomes. -/
def FieldsFulfil (e : Engine) (defs : Definitions) (visible : Bool) (path : Path)
    (names : List String) (whole : Record Format) (sources : List (Record Format))
    (front : Record Format) (input : Record Value) (fs : List Format) : Prop :=
  ∀ (before : List UInt8) (ctx : Context) (store : LazyStore) (s : State),
    Codec.buildFields input path (parts e defs fs) ⟨.atEnd before, ctx, store⟩ = .ok () s →
    ∃ part new ctx' store', s = ⟨.atEnd (before ++ part), ctx', store'⟩ ∧
      Gathered names fs before.length (before.length + part.length) new ctx ctx' ∧
      (FieldsTimely whole sources front fs → Shown (front :: sources) ctx.frames →
        FieldsInTime defs (whole :: sources) fs before.length part new ctx ctx') ∧
      ∀ final record, Firm defs before.length part new final →
        (∀ key ∈ fieldNames fs, EndsAs defs new final ctx'.innermost record key) →
        (visible = false ∧ input = [] ∨ FieldsUpToDate final fs record ∧
          ∀ key ∈ fieldNames fs, ∀ v, Record.get? record key = some v → v.InRange) →
        Regained e defs sources front fs ctx before.length
          ((final.drop before.length).take part.length) record

variable {e : Engine} {defs : Definitions} {visible : Bool} {path : Path}
  {names : List String} {whole : Record Format} {sources : List (Record Format)}
  {front : Record Format} {input : Record Value} {f : Format} {rest : List Format}

theorem FieldsFulfil.nil : FieldsFulfil e defs visible path names whole sources front input [] := by
  intro before ctx store s run
  cases run
  refine ⟨[], [], ctx, store, by rw [List.append_nil], ⟨rfl, (List.append_nil _).symm, .nil _ _,
    List.forall_mem_nil _, id, fun _ _ => rfl, List.forall_mem_nil _⟩, fun _ _ =>
    ⟨List.forall_mem_nil _, List.forall_mem_nil _, fun _ _ _ _ _ => by
      simp only [FieldsUpToDate]⟩, ?_⟩
  intro final record _ _ _ overwrite m suffix ctx₂ store₂ path₂ _ _ _
  exact ⟨ctx₂, rfl, .refl ctx₂, id, fun _ _ _ => rfl, List.forall_mem_nil _⟩

/-! ### One field in front of others -/

private theorem first_of_fields {s s' : State} (flat : f.isEmbedded = false)
    (run : Codec.buildFields input path (parts e defs (f :: rest)) s = .ok () s') :
    ∃ w s₁, (f.codec e defs).build (f.given input) (path.memberIf f.name?) s = .ok w s₁ ∧
      Codec.buildFields input path (parts e defs rest)
        { s₁ with context := s₁.context.noting f.name? w } = .ok () s' := by
  rcases first_of_buildFields flat run with
    ⟨name, u, w, s₁, own, given, made, later⟩ | ⟨w, s₁, unnamed, made, later⟩
  · have own : f.name? = some name := own
    refine ⟨w, s₁, ?_, ?_⟩
    · rw [given_of_named own, own]
      rcases given with found | ⟨found, -, rfl⟩ <;>
      · rw [found]
        exact made
    · rwa [own]
  · have unnamed : f.name? = none := unnamed
    refine ⟨w, s₁, ?_, ?_⟩
    · rwa [given_of_unnamed unnamed, unnamed]
    · rwa [unnamed]

private theorem fieldReaches_cons {key : String} {ns : List Value.Step}
    (distinct : (fieldNames (f :: rest)).Nodup) :
    (f.name? = some key → FieldReaches (f :: rest) key ns → f.Reaches ns) ∧
      (key ∈ fieldNames rest → FieldReaches (f :: rest) key ns → FieldReaches rest key ns) := by
  have fresh := (distinct_rest distinct).2 key
  simp only [FieldReaches]
  exact ⟨fun own reaches => reaches.elim And.right fun later =>
      absurd (mem_of_fieldReaches later) (fresh own),
    fun later reaches => reaches.resolve_left fun mine => fresh mine.1 later⟩

/-- The patches of the first field are noted under no other name. -/
def Addressed (path : Path) (names : List String) (f : Format) : Prop :=
  ∀ key ∈ names, (path.memberIf f.name?).fieldName? = some key → f.name? = some key

private theorem Gathered.cons {start middle stop : Nat} {new new' : List Deferred}
    {ctx ctx' : Context}
    {w : Value} (h : Gathered names rest middle stop new' ((ctx.queued new).noting f.name? w) ctx')
    (distinct : (fieldNames (f :: rest)).Nodup) (addressed : Addressed path names f)
    (tidy : Tidy start middle new) (lower : start ≤ middle) (upper : middle ≤ stop)
    (ours : ∀ d ∈ new, d.scopes = [] → d.path = path.memberIf f.name? ∧ f.Defers)
    (shapes : f.Shapes w) :
    Gathered names (f :: rest) start stop (new ++ new') ctx ctx' := by
  obtain ⟨-, fresh⟩ := distinct_rest distinct
  have kept := (ctx.queued new).kept_noting f.name? w
  refine ⟨h.below.trans kept.below, ?_, tidy.append h.tidy upper lower, ?_,
    fun unique => h.distinct (Context.distinct_noting f.name? w unique), fun key absent => ?_,
    fun key mem => ?_⟩
  · rw [h.deferred, kept.deferred, ← List.append_assoc]
    rfl
  · intro d mem here key inside called
    rcases List.mem_append.mp mem with mem | mem
    · obtain ⟨place, defers⟩ := ours d mem here
      rw [place] at called
      have own := addressed key inside called
      exact ⟨mem_fieldNames_cons.mpr (Or.inl own), fun ns reaches =>
        eq_nil_of_defers defers ((fieldReaches_cons distinct).1 own reaches)⟩
    · obtain ⟨later, nothing⟩ := h.own d mem here key inside called
      exact ⟨mem_fieldNames_cons.mpr (Or.inr later), fun ns reaches =>
        nothing ns ((fieldReaches_cons distinct).2 later reaches)⟩
  · obtain ⟨other, absent⟩ := not_or.mp (mt mem_fieldNames_cons.mpr absent)
    exact (h.others key absent).trans (Context.get?_noting other)
  · rcases mem_fieldNames_cons.mp mem with own | mem
    · refine ⟨w, ?_, fun ns reaches => shapes ns ((fieldReaches_cons distinct).1 own reaches)⟩
      rw [h.others key (fresh key own), own]
      exact Record.get?_insert_self _ _ _
    · obtain ⟨w', found, leads⟩ := h.shows key mem
      exact ⟨w', found, fun ns reaches => leads ns ((fieldReaches_cons distinct).2 mem reaches)⟩

private theorem Regained.cons {built built' : Context} {start : Nat} {data data' : List UInt8}
    {record : Record Value} {w v : Value} (flat : f.isEmbedded = false)
    (distinct : (fieldNames (f :: rest)).Nodup)
    (found : ∀ name, f.name? = some name → Record.get? record name = some v)
    (shapes : f.Shapes w)
    (head : ∀ (m : Medium) (suffix : List UInt8) (ctx : Context) (store : LazyStore) (path : Path),
      m.pos = start → m.rest = data ++ suffix →
      Matches (front :: sources) built.frames ctx.frames →
      ∃ p ctx', (f.codec e defs).parse path ⟨.medium m, ctx, store⟩ =
        .ok p ⟨.medium (m.skip data.length), ctx', store⟩ ∧ ctx.Quiet ctx' ∧
          w.FillsTo p ∧ v.FillsTo p)
    (tail : Regained e defs sources (f.note front) rest built' (start + data.length) data' record)
    (frames : built'.frames = (built.noting f.name? w).frames) :
    Regained e defs sources front (f :: rest) built start (data ++ data') record := by
  intro overwrite m suffix ctx store path pos next same
  obtain ⟨-, fresh⟩ := distinct_rest distinct
  rw [List.append_assoc] at next
  obtain ⟨p, ctx₁, parsed, quiet, fills, fills'⟩ :=
    head m _ ctx store (path.memberIf f.name?) pos next same
  obtain ⟨ctx₂, others, kept, unique, apart, each⟩ := tail overwrite (m.skip data.length) suffix
    (ctx₁.noting f.name? p) store path (by rw [Medium.skip_pos, pos]) (Medium.rest_skip next)
    (frames ▸ (same.quiet quiet).note fills shapes)
  rw [Medium.skip_skip, ← List.length_append] at others
  refine ⟨ctx₂, (parseFields_cons_iff flat).mpr ⟨p, _, parsed, others⟩,
    (quiet.kept.trans (Context.kept_noting ctx₁ f.name? p)).trans kept,
    fun start => unique (Context.distinct_noting f.name? p (quiet.distinct start)),
    fun key absent shown => ?_, fun key mem shown => ?_⟩
  · obtain ⟨other, absent⟩ := not_or.mp (mt mem_fieldNames_cons.mpr absent)
    exact (apart key absent shown).trans ((Context.get?_noting other).trans (quiet.shown key shown))
  · rcases mem_fieldNames_cons.mp mem with own | mem
    · refine ⟨v, p, found key own, ?_, fills'⟩
      rw [apart key (fresh key own) shown, own]
      exact Record.get?_insert_self _ _ _
    · exact each key mem shown

section First

variable {start middle stop : Nat} {part part' final : List UInt8} {new new' : List Deferred}
  {ctx ctx' : Context} {w : Value} {record : Record Value}

/-- The patch that is noted under the name of the first field is one of its own. -/
private theorem becomes_of_ends
    (gathered : Gathered names rest middle stop new' ((ctx.queued new).noting f.name? w) ctx')
    (within : ∀ key ∈ fieldNames (f :: rest), key ∈ names)
    (distinct : (fieldNames (f :: rest)).Nodup)
    (ends : ∀ key ∈ fieldNames (f :: rest),
      EndsAs defs (new ++ new') final ctx'.innermost record key) :
    ∃ v, (∀ name, f.name? = some name → Record.get? record name = some v) ∧
      Becomes defs new final w v := by
  cases own : f.name? with
  | none => exact ⟨w, nofun, Or.inl rfl⟩
  | some name =>
      have fresh := (distinct_rest distinct).2 name own
      have mine : name ∈ fieldNames (f :: rest) := mem_fieldNames_cons.mpr (Or.inl own)
      have noted : Record.get? ctx'.innermost name = some w := by
        rw [gathered.others name fresh, own]
        exact Record.get?_insert_self _ _ _
      rcases ends name mine with same | ⟨d, mem, here, called, v, found, bears⟩
      · refine ⟨w, fun _ eq => ?_, Or.inl rfl⟩
        cases eq
        exact same.trans noted
      · refine ⟨v, fun _ eq => ?_, Or.inr ⟨d, ?_, here, bears⟩⟩
        · cases eq
          exact found
        · exact (List.mem_append.mp mem).resolve_right fun mem =>
            fresh (gathered.own d mem here name (within name mine) called).1

/-- The patches that are noted under other names are those of the other fields. -/
private theorem ends_of_ends (within : ∀ key ∈ fieldNames (f :: rest), key ∈ names)
    (distinct : (fieldNames (f :: rest)).Nodup) (addressed : Addressed path names f)
    (ours : ∀ d ∈ new, d.scopes = [] → d.path = path.memberIf f.name? ∧ f.Defers)
    (ends : ∀ key ∈ fieldNames (f :: rest),
      EndsAs defs (new ++ new') final ctx'.innermost record key) :
    ∀ key ∈ fieldNames rest, EndsAs defs new' final ctx'.innermost record key := by
  intro key mem
  have inside : key ∈ fieldNames (f :: rest) := mem_fieldNames_cons.mpr (Or.inr mem)
  refine (ends key inside).imp_right ?_
  rintro ⟨d, queued, here, called, wrote⟩
  have queued := (List.mem_append.mp queued).resolve_left fun queued => by
    rw [(ours d queued here).1] at called
    exact (distinct_rest distinct).2 key (addressed key (within key inside) called) mem
  exact ⟨d, queued, here, called, wrote⟩

private theorem FieldsInTime.cons {later : List (Record Format)}
    (tail : FieldsInTime defs later rest (start + part.length) part' new'
      ((ctx.queued new).noting f.name? w) ctx')
    (head : InTime e defs later ctx start part new f w)
    (gathered : Gathered names rest (start + part.length) stop new'
      ((ctx.queued new).noting f.name? w) ctx')
    (stops : stop = start + part.length + part'.length)
    (within : ∀ key ∈ fieldNames (f :: rest), key ∈ names)
    (distinct : (fieldNames (f :: rest)).Nodup) (addressed : Addressed path names f)
    (notable : ∀ name, f.Defers → f.name? = some name → Notable name)
    (tidy : Tidy start (start + part.length) new)
    (ours : ∀ d ∈ new, d.scopes = [] → d.path = path.memberIf f.name? ∧ f.Defers) :
    FieldsInTime defs later (f :: rest) start (part ++ part') (new ++ new') ctx ctx' := by
  subst stops
  have below : ((ctx.queued new).noting f.name? w).below = ctx.below :=
    ((ctx.queued new).kept_noting f.name? w).below
  refine ⟨fun d mem => ?_, fun key mem => ?_, fun final record firm ends present => ?_⟩
  · rcases List.mem_append.mp mem with mem | mem
    · rcases head with ⟨rfl, -⟩ | ⟨d', expr, rfl, -, here, depth, patch, known, -⟩
      · cases mem
      · obtain rfl := List.mem_singleton.mp mem
        exact ⟨here, depth, expr, patch, known⟩
    · obtain ⟨here, depth, waits⟩ := tail.waits d mem
      exact ⟨here, depth.trans (congrArg List.length below), waits⟩
  · rcases mem_fieldNames_cons.mp mem with own | mem
    · refine ⟨w, ?_, ?_⟩
      · rw [gathered.others key ((distinct_rest distinct).2 key own), own]
        exact Record.get?_insert_self _ _ _
      · rcases head with ⟨-, filled, -⟩ | ⟨d, expr, rfl, rfl, here, -⟩
        · exact Or.inl filled
        · obtain ⟨place, defers⟩ := ours d List.mem_cons_self here
          refine Or.inr ⟨rfl, d, List.mem_append_left _ List.mem_cons_self, ?_⟩
          rw [place, own]
          exact notable key defers own path
    · obtain ⟨v, found, shows⟩ := tail.shows key mem
      exact ⟨v, found, shows.imp_right fun ⟨left, d, mem, called⟩ =>
        ⟨left, d, List.mem_append_right new mem, called⟩⟩
  · simp only [FieldsUpToDate]
    refine ⟨fun name v own found => ?_, tail.current final record (firm.second tidy)
      (ends_of_ends within distinct addressed ours ends)
      fun key mem => present key (mem_fieldNames_cons.mpr (Or.inr mem))⟩
    obtain ⟨v', found', becomes⟩ := becomes_of_ends gathered within distinct ends
    obtain rfl := Option.some.inj (found.symm.trans (found' name own))
    rcases head with ⟨rfl, -, current⟩ | ⟨-, -, -, -, -, -, -, -, current, -⟩
    · obtain rfl := eq_of_becomes becomes
      exact current final (firm.first gathered.tidy)
    · exact current final v fun none =>
        present name (mem_fieldNames_cons.mpr (Or.inl own)) (none ▸ found)

end First

theorem FieldsFulfil.cons (flat : f.isEmbedded = false)
    (within : ∀ key ∈ fieldNames (f :: rest), key ∈ names)
    (distinct : (fieldNames (f :: rest)).Nodup) (addressed : Addressed path names f)
    (head : f.Fulfils e defs (visible && f.name?.isSome) (path.memberIf f.name?)
      (front :: sources) (whole :: sources) (f.given input))
    (tail : FieldsFulfil e defs visible path names whole sources (f.note front) input rest) :
    FieldsFulfil e defs visible path names whole sources front input (f :: rest) := by
  intro before ctx store s run
  obtain ⟨w, s₁, made, later⟩ := first_of_fields flat run
  obtain ⟨part, new, store₁, rfl, tidy, ours, shapes, inTime, parses⟩ :=
    head before ctx store w s₁ made
  obtain ⟨part', new', ctx', store', rfl, gathered, punctual, regained⟩ := tail _ _ _ _ later
  rw [List.length_append] at gathered punctual regained
  refine ⟨part ++ part', new ++ new', ctx', store', by rw [List.append_assoc], ?_,
    fun timely shown => ?_, ?_⟩
  · rw [List.length_append, ← Nat.add_assoc]
    exact gathered.cons distinct addressed tidy (Nat.le_add_right _ _) (Nat.le_add_right _ _) ours
      shapes
  · simp only [FieldsTimely] at timely
    obtain ⟨first, notable, others⟩ := timely
    have shown' : Shown (f.note front :: sources)
        ((ctx.queued new).noting f.name? w).frames := by
      rw [Context.frames_noting_queued]
      exact shown.note shapes
    exact (punctual others shown').cons (inTime first shown) gathered rfl within distinct addressed
      notable tidy ours
  intro final record firm ends current
  have firm₁ := firm.first gathered.tidy
  obtain ⟨v, found, becomes⟩ := becomes_of_ends gathered within distinct ends
  -- What is in the record under the name of the first field is what this field became.
  have current₁ : (visible && f.name?.isSome) = false ∧ f.given input = .none ∨
      f.UpToDate final v ∧ v.InRange := by
    cases own : f.name? with
    | none => exact Or.inl ⟨by simp, given_of_unnamed own input⟩
    | some name =>
        have mine : name ∈ fieldNames (f :: rest) := mem_fieldNames_cons.mpr (Or.inl own)
        rcases current with ⟨hidden, rfl⟩ | ⟨current, small⟩
        · exact Or.inl ⟨by simp [hidden], given_of_named own []⟩
        · simp only [FieldsUpToDate] at current
          exact Or.inr ⟨current.1 name v own (found name own), small name mine v (found name own)⟩
  have current₂ : visible = false ∧ input = [] ∨ FieldsUpToDate final rest record ∧
      ∀ key ∈ fieldNames rest, ∀ v, Record.get? record key = some v → v.InRange := by
    rcases current with hidden | ⟨current, small⟩
    · exact Or.inl hidden
    · simp only [FieldsUpToDate] at current
      exact Or.inr ⟨current.2, fun key mem => small key (mem_fieldNames_cons.mpr (Or.inr mem))⟩
  have later := regained final record (firm.second tidy)
    (ends_of_ends within distinct addressed ours ends) current₂
  rw [Firm.slice_append]
  have length := firm₁.length_slice
  refine Regained.cons flat distinct found shapes
    (fun m suffix ctx₂ store₂ path₂ pos next same => ?_)
    (length.symm ▸ later) (ctx.frames_noting_queued new f.name? w)
  rw [length]
  exact parses final v firm₁ becomes current₁ m suffix ctx₂ store₂ path₂ pos next same

/-! ### Structures -/

private theorem eq_of_becomes_moved {queue : List Deferred} {frame : Record Value}
    {final : List UInt8}
    {w v : Value}
    (h : Becomes defs (queue.map fun d => { d with scopes := frame :: d.scopes }) final w v) :
    v = w := by
  refine h.resolve_right ?_
  rintro ⟨_, mem, here, -⟩
  obtain ⟨d, -, rfl⟩ := List.mem_map.mp mem
  cases here

private theorem input_of_accepts {fields : List Format} {overwrite : Bool} {u : Value}
    {s s₁ : State}
    (accepts : (struct fields overwrite).Accepts u)
    (entered : e.containerInput u path s = .ok input s₁) :
    s₁ = s ∧ (u = .none → input = []) ∧ (Record.keys input).Nodup ∧
      (∀ key ∉ fieldNames fields, Record.isPrivate key = false → Record.get? input key = none) ∧
      FieldsAccept fields input := by
  simp only [Accepts] at accepts
  obtain ⟨rfl, ⟨rfl, rfl⟩ | given⟩ := given_of_containerInput accepts.1 entered
  · refine ⟨rfl, fun _ => rfl, List.nodup_nil, fun _ _ _ => rfl, ?_⟩
    clear accepts entered
    induction fields with
    | nil => simp only [FieldsAccept]
    | cons f rest ih =>
        simp only [FieldsAccept]
        refine ⟨?_, ih⟩
        have nothing : f.given [] = .none := by
          rw [Format.given]
          cases f.name? <;> rfl
        rw [nothing]
        exact accepts_atom (show Value.IsAtom .none from trivial) f
  · obtain ⟨distinct, known, fields⟩ := accepts.2 input given
    refine ⟨rfl, ?_, distinct, fun key other shown => ?_, fields⟩
    · rintro rfl
      cases given
    · exact Record.not_mem_keys_iff.mp fun mem => other (known key mem shown)

/-- When patches have been noted, the fields still show. -/
private theorem Gathered.leads {start stop : Nat} {new : List Deferred} {ctx ctx' : Context}
    {fields : List Format} {frame : Record Value}
    (h : Gathered (fieldNames fields) fields start stop new ctx ctx')
    (claims : ∀ key, Claimed new ctx'.innermost frame key) :
    ∀ key ∈ fieldNames fields, ∃ w : Value, Record.get? frame key = some w ∧
      ∀ ns, FieldReaches fields key ns → ∃ x, w.reach ns = some x := by
  intro key mem
  obtain ⟨v, noted, leads⟩ := h.shows key mem
  rcases claims key with same | ⟨d, queued, here, called, w, found, -⟩
  · exact ⟨v, same.trans noted, leads⟩
  · refine ⟨w, found, fun ns reaches => ?_⟩
    rw [(h.own d queued here key mem called).2 ns reaches]
    exact ⟨w, rfl⟩

private theorem get?_byName {key : String} {g : Format} {fields : List Format}
    {front : Record Format}
    (found : Record.get? (byName fields front) key = some g) :
    Record.get? front key = some g ∨
      key ∈ fieldNames fields ∧ ∀ ns, g.Reaches ns → FieldReaches fields key ns := by
  induction fields generalizing front with
  | nil => exact Or.inl found
  | cons f rest ih =>
      simp only [FieldReaches]
      rcases ih found with noted | ⟨mem, reaches⟩
      · unfold note at noted
        cases own : f.name? with
        | none =>
            rw [own] at noted
            exact Or.inl noted
        | some name =>
            rw [own] at noted
            by_cases same : name = key
            · subst same
              obtain rfl :=
                Option.some.inj ((Record.get?_insert_self front name f).symm.trans noted)
              exact Or.inr ⟨mem_fieldNames_cons.mpr (Or.inl own),
                fun _ reach => Or.inl ⟨rfl, reach⟩⟩
            · exact Or.inl ((Record.get?_insert_of_ne same front f).symm.trans noted)
      · exact Or.inr ⟨mem_fieldNames_cons.mpr (Or.inr mem),
          fun ns reach => Or.inr (reaches ns reach)⟩

private theorem shown_byName {fields : List Format} {frame : Record Value}
    {below : List (Record Value)}
    (leads : ∀ key ∈ fieldNames fields, ∃ w : Value, Record.get? frame key = some w ∧
      ∀ ns, FieldReaches fields key ns → ∃ x, w.reach ns = some x) (shown : Shown sources below) :
    Shown (byName fields [] :: sources) (frame :: below) := by
  intro j front at_j
  cases j with
  | succ j => exact shown j front at_j
  | zero =>
      cases at_j
      refine ⟨frame, rfl, fun name g found _ => ?_⟩
      obtain ⟨mem, reaches⟩ := (get?_byName found).resolve_left nofun
      obtain ⟨w, noted, leads⟩ := leads name mem
      exact ⟨w, noted, fun ns reach => leads ns (reaches ns reach)⟩

/-- Patches that are known when the structure is complete are all noted in it. -/
private theorem record_in_time {fields : List Format} {start : Nat} {part part' : List UInt8}
    {new waiting : List Deferred} {ctx ctx₁ ctx₂ : Context}
    (inTime : FieldsInTime defs (byName fields [] :: sources) fields start part new
      (ctx.push input) ctx₁)
    (gathered : Gathered (fieldNames fields) fields start (start + part.length) new
      (ctx.push input) ctx₁)
    (resolution : Resolution e defs new waiting start part part' ctx₁ ctx₂)
    (shown : Shown sources ctx.frames) (distinct : (Record.keys ctx₂.innermost).Nodup)
    (known : ∀ key ∉ fieldNames fields, Record.isPrivate key = false →
      Record.get? ctx₂.innermost key = none) :
    waiting = [] ∧ (Value.container ctx₂.innermost).isFilled = true ∧
      ∀ final, Firm defs start part' [] final → FieldsUpToDate final fields ctx₂.innermost := by
  -- A patch that waits would have failed over a frame that shows all fields, where its value is
  -- known.
  have none : waiting = [] := by
    refine List.eq_nil_iff_forall_not_mem.mpr fun d mem => ?_
    obtain ⟨here, -, expr, patch, known⟩ := inTime.waits d (resolution.sub.subset mem)
    obtain ⟨now, below, claims, -, store, failure, store', failed, waits⟩ :=
      resolution.pending d mem
    have frames : (now.scopeOf d).frames = now.innermost :: ctx.frames := by
      show d.scopes.reverse ++ now.frames = _
      rw [here, List.reverse_nil, List.nil_append, Context.frames, below, gathered.below]
      rfl
    rw [patch] at failed
    rw [known e.resolver (now.scopeOf d).frames d.path store store' failure
      (frames ▸ shown_byName (gathered.leads claims) shown) failed] at waits
    cases waits
  subst none
  -- An entry is what the field was built to, or what its patch has written.
  have shows : ∀ key ∈ fieldNames fields, ∀ w, Record.get? ctx₂.innermost key = some w →
      w.isFilled = true := by
    intro key mem w found
    rcases resolution.claims key with same | ⟨d, queued, here, called, v, found', atom, present⟩
    · obtain ⟨v, noted, filled⟩ := inTime.shows key mem
      obtain rfl := Option.some.inj (found.symm.trans (same.trans noted))
      refine filled.resolve_right ?_
      rintro ⟨rfl, d, queued, called⟩
      obtain ⟨here, depth, -⟩ := inTime.waits d queued
      exact resolution.noted d queued List.not_mem_nil here
        (depth.trans (congrArg List.length gathered.below.symm)) key called
        (Record.mem_keys_iff.mpr ⟨_, noted⟩) found
    · obtain rfl := Option.some.inj (found.symm.trans found')
      exact atom.isFilled present
  refine ⟨rfl, ?_, fun final ended => ?_⟩
  · simp only [Value.isFilled]
    refine Value.haveFilled_iff.mpr fun key w mem shown' => ?_
    have found := Record.get?_eq_some_of_mem distinct mem
    by_cases mine : key ∈ fieldNames fields
    · exact shows key mine w found
    · rw [known key mine shown'] at found
      cases found
  · obtain ⟨firm, ends⟩ := resolution.firm [] final gathered.tidy ended
    refine inTime.current final _ firm (fun key _ => ends key) fun key mem placeholder => ?_
    cases shows key mem _ placeholder

theorem fulfils_struct (patches : BuildsPatches defs e) {fields : List Format} {overwrite : Bool}
    {u : Value} {later : List (Record Format)} (accepts : (struct fields overwrite).Accepts u)
    (inner : ∀ input, FieldsAccept fields input → FieldsFulfil e defs visible path
      (fieldNames fields) (byName fields []) sources [] input fields) :
    (struct fields overwrite).Fulfils e defs visible path sources later u := by
  intro before ctx store w s run
  obtain ⟨input, s₁, entered, run⟩ := Run.bind_eq_ok_iff.mp run
  obtain ⟨rfl, absent, distinct, known, accepted⟩ := input_of_accepts accepts entered
  obtain ⟨⟨_, frame⟩, s₂, framed, run⟩ := Run.bind_eq_ok_iff.mp run
  obtain ⟨rfl, rfl⟩ := Run.pure_eq_ok_iff.mp run
  obtain ⟨s₃, inside, isFrame, rfl⟩ := Run.ok_of_inFrame framed
  obtain ⟨_, s₄, built, settled⟩ := Run.bind_eq_ok_iff.mp inside
  obtain ⟨part, new, ctx₁, store₁, rfl, gathered, inTime, regained⟩ :=
    inner input accepted before _ _ _ built
  obtain rfl : ctx₁.top.deferred = new := gathered.deferred
  obtain ⟨part', ctx₂, store₂, rfl, -, resolution⟩ :=
    Engine.resolution_of_resolveSince patches gathered.tidy settled
  dsimp only at isFrame
  subst isFrame
  rw [Context.pop_eq_queued (resolution.below.trans gathered.below)]
  have unique := resolution.distinct (gathered.distinct distinct)
  have others : ∀ key ∉ fieldNames fields, Record.isPrivate key = false →
      Record.get? ctx₂.innermost key = none := fun key mine shown =>
    Record.not_mem_keys_iff.mp (mt (resolution.keys key).mp
      (Record.not_mem_keys_iff.mpr ((gathered.others key mine).trans (known key mine shown))))
  -- The patches that are left were handed down, none of them to be noted here.
  refine ⟨part', _, store₂, rfl, ?_, fun d mem here => ?_, ?_, fun timely shown => ?_, ?_⟩
  · rw [resolution.length]
    exact (gathered.tidy.sublist resolution.sub).moved _
  · obtain ⟨d', -, rfl⟩ := List.mem_map.mp mem
    cases here
  · intro ns reaches
    simp only [Reaches] at reaches
    rcases reaches with rfl | ⟨name, rest, rfl, reaches⟩
    · exact ⟨_, rfl⟩
    · obtain ⟨v, found, leads⟩ :=
        gathered.leads resolution.claims name (mem_of_fieldReaches reaches)
      obtain ⟨x, reached⟩ := leads rest reaches
      exact ⟨x, Option.bind_eq_some_iff.mpr ⟨v, found, reached⟩⟩
  · simp only [Timely] at timely
    obtain ⟨none, filled, current⟩ :=
      record_in_time (inTime timely (shown.push input)) gathered resolution shown unique others
    rw [none]
    refine Or.inl ⟨rfl, filled, fun final firm => ?_⟩
    simp only [UpToDate]
    rintro _ ⟨⟩
    exact current final firm
  intro final v ended becomes current m suffix ctx₃ store₃ path₂ pos next same
  -- Parsing again: the bytes are those of the fields once their patches were applied.
  obtain rfl := eq_of_becomes_moved becomes
  obtain ⟨firm, ends⟩ := resolution.firm [] final gathered.tidy ended.moved
  have current : visible = false ∧ input = [] ∨
      FieldsUpToDate final fields ctx₂.innermost ∧
        ∀ key ∈ fieldNames fields, ∀ v, Record.get? ctx₂.innermost key = some v → v.InRange := by
    rcases current with ⟨hidden, missing⟩ | ⟨current, small⟩
    · exact Or.inl ⟨hidden, absent missing⟩
    · simp only [UpToDate] at current
      exact Or.inr ⟨current _ rfl, fun key _ v found => Value.InRangeFields.get? small found⟩
  have length := resolution.length
  rw [length] at next ⊢
  obtain ⟨ctx₄, parsed, kept, unique', apart, each⟩ := regained final ctx₂.innermost firm
    (fun key _ => ends key) current overwrite m suffix (ctx₃.push []) store₃ path₂ pos next
    (same.push input [])
  have measured : ((final.drop before.length).take part.length).length = part.length :=
    Firm.length_slice firm
  rw [measured] at parsed
  have framed : Run.inFrame [] (Codec.parseFields overwrite false path₂ (parts e defs fields))
      ⟨.medium m, ctx₃, store₃⟩ = .ok ((), ctx₄.innermost) _ := Run.inFrame_of_ok parsed
  rw [Context.pop_of_kept kept] at framed
  have fills : (Value.container ctx₂.innermost).FillsTo (.container ctx₄.innermost) := by
    refine Value.fillsTo_container unique (unique' List.nodup_nil) fun key shown => ?_
    by_cases mine : key ∈ fieldNames fields
    · exact Or.inr (each key mine shown)
    · exact Or.inl ⟨others key mine shown, apart key mine shown⟩
  refine ⟨.container ctx₄.innermost, ctx₃, ?_, .refl ctx₃, fills, fills⟩
  simp only [codec, Codec.struct]
  rw [Run.bind_of_ok framed]
  rfl

end Format

end BinaryFormat
