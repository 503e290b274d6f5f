import BinaryFormat.Proofs.Legible

/-!
# Fields that are parsed as they were built

Where a field is parsed at the offset at which it was built, it shows what was
built.  Integers and byte strings of constant size do so, structures of such
fields, raw copies with the offsets that they note, and a choice between
components that falls the same way on both sides.
-/

namespace BinaryFormat

namespace Value

mutual

/-- What the other value holds is held; further entries of containers do not count. -/
def Covers : Value → Value → Prop
  | container ws, container ps => CoversFields ws ps
  | w, p => w = p

def CoversFields (ws : Record Value) : List (String × Value) → Prop
  | [] => True
  | (key, p) :: rest =>
      (Record.isPrivate key = false → ∃ w, Record.get? ws key = some w ∧ Covers w p) ∧
        CoversFields ws rest

end

private theorem coversFields_iff {ws : Record Value} {ps : List (String × Value)} :
    CoversFields ws ps ↔ ∀ key p, (key, p) ∈ ps → Record.isPrivate key = false →
      ∃ w, Record.get? ws key = some w ∧ w.Covers p := by
  induction ps with
  | nil => simp [CoversFields]
  | cons entry rest ih =>
      obtain ⟨key, p⟩ := entry
      simp only [CoversFields, ih, List.mem_cons]
      constructor
      · rintro ⟨head, tail⟩ k x (same | mem) shown
        · cases same
          exact head shown
        · exact tail k x mem shown
      · intro all
        exact ⟨all key p (Or.inl rfl), fun k x mem => all k x (Or.inr mem)⟩

private theorem covers_int (n : Int) : (int n).Covers (int n) := by simp only [Covers]

private theorem covers_bytes (data : List UInt8) : (bytes data).Covers (bytes data) := by
  simp only [Covers]

private theorem covers_none : none.Covers none := by simp only [Covers]

end Value

/-- Built from the value at the end of a stream, over a frame of one kind, a codec appends bytes
that it parses from the same offset, over a frame of the other kind, as what was built. -/
def Codec.Faithful (u : Value) (built parsed : Record Value → Prop) (c : Codec) : Prop :=
  ∀ (path : Path) (before : List UInt8) (ctx : Context) (store : LazyStore) (w : Value)
    (s : State), built ctx.innermost →
    c.build u path ⟨.atEnd before, ctx, store⟩ = .ok w s →
    ∃ data store', s = ⟨.atEnd (before ++ data), ctx, store'⟩ ∧
      (u = .none ∨ w.InRange → ∀ (m : Medium) (suffix : List UInt8) (ctx₂ : Context)
        (store₂ : LazyStore) (path₂ : Path), m.pos = before.length → m.rest = data ++ suffix →
        parsed ctx₂.innermost →
        ∃ p ctx₃, c.parse path₂ ⟨.medium m, ctx₂, store₂⟩ =
            .ok p ⟨.medium (m.skip data.length), ctx₃, store₂⟩ ∧ ctx₂.Quiet ctx₃ ∧ w.Covers p)

/-- What a field is built from. -/
def Part.given (p : Part) (input : Record Value) : Value :=
  match p.name? with
  | some name => (input.get? name).getD .none
  | none => .none

structure Part.Faithful (input : Record Value) (built parsed : Record Value → Prop) (p : Part) :
    Prop where
  flat : p.format.isEmbedded = false
  codec : p.codec.Faithful (p.given input) built parsed

namespace Codec

variable {e : Engine} {built parsed : Record Value → Prop} {u : Value}

/-- Over any frame. -/
abbrev Anywhere : Record Value → Prop := fun _ => True

theorem Faithful.over {c : Codec} (h : c.Faithful u Anywhere Anywhere) :
    c.Faithful u built parsed := by
  intro path before ctx store w s _ run
  obtain ⟨data, store', left, shows⟩ := h path before ctx store w s trivial run
  exact ⟨data, store', left, fun small m suffix ctx₂ store₂ path₂ pos next _ =>
    shows small m suffix ctx₂ store₂ path₂ pos next trivial⟩

/-! ## Numbers and byte strings -/

/-- The bytes are parsed as this value. -/
def ReadAs (c : Codec) (v : Value) (data : List UInt8) : Prop :=
  ∀ (m : Medium) (suffix : List UInt8) (ctx : Context) (store : LazyStore) (path : Path),
    m.rest = data ++ suffix →
      ∃ ctx', c.parse path ⟨.medium m, ctx, store⟩ =
          .ok v ⟨.medium (m.skip data.length), ctx', store⟩ ∧ ctx.Quiet ctx'

theorem readAs_integer {width : Nat} {signed : Bool} {endian : Endian} {n : Int}
    (positive : 1 ≤ width) (narrow : width ≤ 16)
    (fits : Integer.fits n (width * 8) signed = true) (proper : Value.fitsInt n = true) :
    (integer e (.const (.int width)) signed endian).ReadAs (.int n)
      (Integer.inOrder endian (Bytes.ofNat width (Integer.toPattern n (width * 8)))) := by
  intro m suffix ctx store path next
  have reads : (integer e (.const (.int width)) signed endian).Reads false .nothing _ _ :=
    reads_integer positive narrow fits proper
  obtain ⟨p, ctx', run, quiet, ext⟩ :=
    reads m suffix ctx store path next (by simp) (Surroundings.held_nothing ctx)
  rw [Value.eq_of_extends_int ext] at run
  exact ⟨ctx', run, quiet⟩

theorem readAs_bytes {data : List UInt8} (room : data.length ≤ Value.maxSize) :
    (bytes e (.const (.int data.length))).ReadAs (.bytes data) data := by
  intro m suffix ctx store path next
  have reads : (bytes e (.const (.int data.length))).Reads false .nothing _ _ :=
    reads_bytes ⟨room, Or.inl rfl⟩
  obtain ⟨p, ctx', run, quiet, ext⟩ :=
    reads m suffix ctx store path next (by simp) (Surroundings.held_nothing ctx)
  rw [← Format.eq_of_extends_atom ext (Or.inr ⟨data, rfl⟩) rfl] at run
  exact ⟨ctx', run, quiet⟩

theorem faithful_integer (width : Int) (signed : Bool) (endian : Endian) :
    (integer e (.const (.int width)) signed endian).Faithful u Anywhere Anywhere := by
  intro path before ctx store w s _ run
  obtain ⟨n, k, rfl, positive, narrow, isNumber, fits, rfl, rfl⟩ := integer_of_build run
  have length : (Integer.inOrder endian
      (Bytes.ofNat n (Integer.toPattern k (n * 8)))).length = n := by
    rw [Integer.length_inOrder, Bytes.length_ofNat]
  refine ⟨_, store, Stream.state_overlay_at_end before length ctx store,
    fun small m suffix ctx₂ store₂ path₂ _ next _ => ?_⟩
  have proper : Value.fitsInt k = true := by
    rcases small with rfl | small
    · cases isNumber
    · exact small
  obtain ⟨ctx₃, run, quiet⟩ := readAs_integer (e := e) positive narrow fits proper m suffix ctx₂
    store₂ path₂ next
  exact ⟨.int k, ctx₃, run, quiet, Value.covers_int k⟩

theorem faithful_pass : pass.Faithful u Anywhere Anywhere := by
  intro path before ctx store w s _ run
  cases run
  refine ⟨[], store, by rw [List.append_nil], fun _ m suffix ctx₂ store₂ path₂ _ _ _ =>
    ⟨.none, ctx₂, rfl, .refl ctx₂, Value.covers_none⟩⟩

/-! ## Fields -/

/-- The fields are parsed from an offset on, and show what is noted of them. -/
def Recalls (fields : List Part) (offset : Nat) (data : List UInt8)
    (parsed : Record Value → Prop) (noted : Record Value) : Prop :=
  ∀ (overwrite : Bool) (m : Medium) (suffix : List UInt8) (ctx : Context) (store : LazyStore)
    (path : Path), m.pos = offset → m.rest = data ++ suffix → parsed ctx.innermost →
    ∃ ctx', parseFields overwrite false path fields ⟨.medium m, ctx, store⟩ =
        .ok () ⟨.medium (m.skip data.length), ctx', store⟩ ∧ ctx.Kept ctx' ∧
      ((Record.keys ctx.innermost).Nodup → (Record.keys ctx'.innermost).Nodup) ∧
      (∀ k ∉ Part.names fields, Record.isPrivate k = false →
        Record.get? ctx'.innermost k = Record.get? ctx.innermost k) ∧
      ∀ k ∈ Part.names fields, Record.isPrivate k = false →
        ∃ w p, Record.get? noted k = some w ∧ Record.get? ctx'.innermost k = some p ∧ w.Covers p

theorem Recalls.noted {fields : List Part} {offset : Nat} {data : List UInt8}
    {parsed : Record Value → Prop} {noted noted' : Record Value}
    (h : Recalls fields offset data parsed noted)
    (same : ∀ k ∈ Part.names fields, Record.get? noted' k = Record.get? noted k) :
    Recalls fields offset data parsed noted' := by
  intro overwrite m suffix ctx store path pos next start
  obtain ⟨ctx', run, kept, unique, others, shows⟩ :=
    h overwrite m suffix ctx store path pos next start
  refine ⟨ctx', run, kept, unique, others, fun k mem shown => ?_⟩
  rw [same k mem]
  exact shows k mem shown

/-- A kind of frame that does not depend on the entries of fields. -/
def Apart (fields : List Part) (kind : Record Value → Prop) : Prop :=
  ∀ frame frame', (∀ k ∉ Part.names fields, Record.isPrivate k = false →
    Record.get? frame' k = Record.get? frame k) → kind frame → kind frame'

theorem apart_anywhere (fields : List Part) : Apart fields Anywhere := fun _ _ _ _ => trivial

private theorem Apart.tail {field : Part} {rest : List Part} {kind : Record Value → Prop}
    (apart : Apart (field :: rest) kind) : Apart rest kind := by
  refine fun frame frame' same => apart frame frame' fun k absent => same k fun mem => absent ?_
  cases own : field.name? with
  | none => rwa [Part.names_cons_of_none own]
  | some name =>
      rw [Part.names_cons_of_some own]
      exact List.mem_cons_of_mem name mem

private theorem recalls_cons {field : Part} {rest : List Part} {offset : Nat}
    {part data : List UInt8}
    {w : Value} {noted : Record Value} (flat : field.format.isEmbedded = false)
    (apart : Apart (field :: rest) parsed) (distinct : (Part.names (field :: rest)).Nodup)
    (own : ∀ name, field.name? = some name → Record.get? noted name = some w)
    (head : ∀ (m : Medium) (suffix : List UInt8) (ctx : Context) (store : LazyStore) (path : Path),
      m.pos = offset → m.rest = part ++ suffix → parsed ctx.innermost →
      ∃ p ctx', field.codec.parse path ⟨.medium m, ctx, store⟩ =
        .ok p ⟨.medium (m.skip part.length), ctx', store⟩ ∧ ctx.Quiet ctx' ∧ w.Covers p)
    (tail : Recalls rest (offset + part.length) data parsed noted) :
    Recalls (field :: rest) offset (part ++ data) parsed noted := by
  intro overwrite m suffix ctx store path pos next start
  rw [List.append_assoc] at next
  have pos' : (m.skip part.length).pos = offset + part.length := by rw [Medium.skip_pos, pos]
  have reached : (m.skip part.length).skip data.length = m.skip (part ++ data).length := by
    rw [Medium.skip_skip, List.length_append]
  cases hasName : field.name? with
  -- A field without a name leaves the frame to the others as it was; one with a name is noted
  -- first.
  | none =>
      obtain ⟨p, ctx₁, first, quiet, -⟩ := head m _ ctx store path pos next start
      obtain ⟨ctx₂, others, kept, unique, same, shows⟩ := tail overwrite _ suffix ctx₁ store path
        pos' (Medium.rest_skip next) (apart _ _ (fun k _ shown => quiet.shown k shown) start)
      rw [Part.names_cons_of_none hasName]
      refine ⟨ctx₂, ?_, quiet.kept.trans kept, unique ∘ quiet.distinct,
        fun k absent shown => (same k absent shown).trans (quiet.shown k shown), shows⟩
      rw [parseFields]
      simp only [flat, Bool.false_eq_true, if_false, hasName]
      rw [Run.bind_of_ok (Part.parse_of_ok first), others, reached]
  | some name =>
      rw [Part.names_cons_of_some hasName] at distinct ⊢
      obtain ⟨p, ctx₁, first, quiet, covers⟩ :=
        head m _ ctx store (path.member name) pos next start
      have others : ∀ k ≠ name, Record.isPrivate k = false →
          Record.get? (ctx₁.insert name p).innermost k = Record.get? ctx.innermost k :=
        fun k other shown => (Record.get?_insert_of_ne (Ne.symm other) ctx₁.innermost p).trans
          (quiet.shown k shown)
      obtain ⟨ctx₂, later, kept, unique, same, shows⟩ := tail overwrite _ suffix
        (ctx₁.insert name p) store path pos' (Medium.rest_skip next) (apart _ _ (by
          rw [Part.names_cons_of_some hasName]
          exact fun k absent => others k fun eq => absent (eq ▸ List.mem_cons_self)) start)
      have noting : Run.insert name p ⟨.medium (m.skip part.length), ctx₁, store⟩ =
          .ok () ⟨.medium (m.skip part.length), ctx₁.insert name p, store⟩ := rfl
      refine ⟨ctx₂, ?_, (quiet.kept.trans (Context.kept_insert ctx₁ name p)).trans kept,
        fun start => unique (Record.nodup_insert (quiet.distinct start) name p),
        fun k absent shown => ?_, fun k mem shown => ?_⟩
      · rw [parseFields]
        simp only [flat, Bool.false_eq_true, if_false, hasName]
        rw [Run.bind_of_ok (Part.parse_of_ok first), Run.bind_of_ok noting, later, reached]
      · obtain ⟨other, absent⟩ := not_or.mp (mt List.mem_cons.mpr absent)
        exact (same k absent shown).trans (others k other shown)
      · rcases List.mem_cons.mp mem with rfl | mem
        · exact ⟨w, p, own k hasName, (same k (List.nodup_cons.mp distinct).1 shown).trans
            (Record.get?_insert_self _ _ _), covers⟩
        · exact shows k mem shown

/-- Fields that are faithful show what was noted of them when they were built. -/
theorem recalls_of_buildFields {input : Record Value} {path : Path} {fields : List Part}
    {before : List UInt8} {ctx : Context} {store : LazyStore} {s : State}
    (each : ∀ p ∈ fields, p.Faithful input built parsed) (distinct : (Part.names fields).Nodup)
    (apart : Apart fields built) (apart' : Apart fields parsed) (start : built ctx.innermost)
    (run : buildFields input path fields ⟨.atEnd before, ctx, store⟩ = .ok () s) :
    ∃ data ctx' store', s = ⟨.atEnd (before ++ data), ctx', store'⟩ ∧ ctx.Kept ctx' ∧
      (∀ k ∉ Part.names fields, Record.get? ctx'.innermost k = Record.get? ctx.innermost k) ∧
      (input = [] ∨ (∀ k ∈ Part.names fields, ∀ v,
          Record.get? ctx'.innermost k = some v → v.InRange) →
        Recalls fields before.length data parsed ctx'.innermost) := by
  -- By the fields: what the first one is built to is noted under its name, and no later one has
  -- this name.
  induction fields generalizing before ctx store with
  | nil =>
      cases run
      exact ⟨[], ctx, store, by rw [List.append_nil], .refl ctx, fun _ _ => rfl,
        fun _ _ m _ ctx₂ _ _ _ _ _ => ⟨ctx₂, rfl, .refl ctx₂, id, fun _ _ _ => rfl, nofun⟩⟩
  | cons p rest ih =>
      have here := each p List.mem_cons_self
      have others : ∀ q ∈ rest, q.Faithful input built parsed :=
        fun q mem => each q (List.mem_cons_of_mem p mem)
      rcases Format.first_of_buildFields here.flat run with
        ⟨name, u, w, s₁, hasName, given, first, later⟩ | ⟨w, s₁, hasNone, first, later⟩
      · have isGiven : p.given input = u := by
          rcases given with found | ⟨missing, -, rfl⟩
          · simp only [Part.given, hasName, found, Option.getD_some]
          · simp only [Part.given, hasName, missing, Option.getD_none]
        have codec := here.codec
        rw [isGiven] at codec
        obtain ⟨part, store₁, rfl, head⟩ := codec _ before ctx store w s₁ start first
        have names := Part.names_cons_of_some hasName rest
        obtain ⟨fresh, distinct'⟩ := List.nodup_cons.mp (names ▸ distinct)
        have start' : built (ctx.insert name w).innermost := by
          refine apart _ _ (fun k absent _ => Record.get?_insert_of_ne ?_ ctx.innermost w) start
          rintro rfl
          exact absent (names ▸ List.mem_cons_self)
        obtain ⟨data, ctx', store', rfl, kept, same, shows⟩ :=
          ih others distinct' apart.tail apart'.tail start' later
        have noted : Record.get? ctx'.innermost name = some w :=
          (same name fresh).trans (Record.get?_insert_self _ _ _)
        refine ⟨part ++ data, ctx', store', by rw [List.append_assoc],
          (ctx.kept_insert name w).trans kept, fun k absent => ?_, fun small => ?_⟩
        · obtain ⟨other, absent⟩ := not_or.mp (mt List.mem_cons.mpr (names ▸ absent))
          exact (same k absent).trans
            (Record.get?_insert_of_ne (Ne.symm other) ctx.innermost w)
        · have small₁ : u = .none ∨ w.InRange := by
            rcases small with rfl | small
            · rcases given with found | ⟨-, -, none⟩
              · cases found
              · exact Or.inl none
            · exact Or.inr (small name (names ▸ List.mem_cons_self) w noted)
          have small₂ := small.imp_right fun small k mem =>
            small k (names ▸ List.mem_cons_of_mem name mem)
          have tail := shows small₂
          rw [List.length_append] at tail
          refine recalls_cons here.flat apart' distinct (fun other own => ?_) (head small₁) tail
          obtain rfl : name = other := Option.some.inj (hasName.symm.trans own)
          exact noted
      · have codec := here.codec
        simp only [Part.given, hasNone] at codec
        obtain ⟨part, store₁, rfl, head⟩ := codec _ before ctx store w s₁ start first
        have names := Part.names_cons_of_none hasNone rest
        obtain ⟨data, ctx', store', rfl, kept, same, shows⟩ :=
          ih others (names ▸ distinct) apart.tail apart'.tail start later
        refine ⟨part ++ data, ctx', store', by rw [List.append_assoc], kept,
          fun k absent => same k (names ▸ absent), fun small => ?_⟩
        have tail := shows (small.imp_right fun small k mem => small k (names ▸ mem))
        rw [List.length_append] at tail
        refine recalls_cons here.flat apart' distinct (fun other own => ?_) (head (Or.inl rfl)) tail
        cases hasNone.symm.trans own

end Codec

/-! ## Raw copies -/

namespace Codec

variable {e : Engine}

theorem faithful_rawCopy {of : Part} {given : Record Value} {u : Value}
    (value : Record.get? given "value" = some u) (present : u.isNone = false)
    (inner : of.codec.Faithful u Anywhere Anywhere) :
    (rawCopy e of).Faithful (.container given) Anywhere Anywhere := by
  intro path before ctx store w s _ run
  rw [rawCopy] at run
  obtain ⟨input, s₁, entered, run⟩ := Run.bind_eq_ok_iff.mp run
  cases entered
  rw [Run.bind_of_ok (Run.tell_atEnd _ _ _)] at run
  simp only [value, Option.getD_some, present, Bool.not_false, if_true] at run
  obtain ⟨v, s₂, built, run⟩ := Run.bind_eq_ok_iff.mp run
  obtain ⟨data, store', rfl, shows⟩ :=
    inner path before ctx store v s₂ trivial (Part.build_eq_ok_iff.mp built)
  rw [Run.bind_of_ok (Run.tell_atEnd _ _ _),
    Run.bind_of_ok (copySince_atEnd before data ctx store' path)] at run
  cases run
  -- The copy adds no bytes of its own: what the component has appended is parsed, and copied,
  -- again.
  refine ⟨data, store', rfl, fun small m suffix ctx₂ store₂ path₂ pos next _ => ?_⟩
  have small' : u = .none ∨ v.InRange := by
    rcases small with none | small
    · cases none
    · have fields : Value.InRangeFields _ := small
      exact Or.inr (fields.get? (show Record.get? _ "value" = some v from rfl))
  obtain ⟨p, ctx₃, parsed, quiet, covers⟩ :=
    shows small' m suffix ctx₂ store₂ path₂ pos next trivial
  have back : copySince m.pos path₂ ⟨.medium (m.skip data.length), ctx₃, store₂⟩ =
      .ok data ⟨.medium (m.skip data.length), ctx₃, store₂⟩ := copySince_skip next ctx₃ store₂ path₂
  refine ⟨rawRecord data p before.length (before ++ data).length, ctx₃, ?_, quiet, ?_⟩
  · rw [rawCopy]
    dsimp only
    rw [Run.bind_of_ok (Run.tell_medium _ _ _), Run.bind_of_ok (Part.parse_of_ok parsed),
      Run.bind_of_ok (Run.tell_medium _ _ _), Run.bind_of_ok back, pos, List.length_append,
      Medium.skip_pos, pos]
    rfl
  · simp only [rawRecord, Value.Covers]
    refine Value.coversFields_iff.mpr fun k x mem _ => ?_
    simp only [List.mem_cons, Prod.mk.injEq, List.not_mem_nil, or_false] at mem
    rcases mem with ⟨rfl, rfl⟩ | ⟨rfl, rfl⟩ | ⟨rfl, rfl⟩ | ⟨rfl, rfl⟩ | ⟨rfl, rfl⟩
    · exact ⟨_, rfl, Value.covers_int _⟩
    · exact ⟨_, rfl, Value.covers_bytes _⟩
    · exact ⟨_, rfl, covers⟩
    · exact ⟨_, rfl, Value.covers_int _⟩
    · exact ⟨_, rfl, Value.covers_int _⟩

end Codec

end BinaryFormat
