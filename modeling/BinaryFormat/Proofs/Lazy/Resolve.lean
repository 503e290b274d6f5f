import BinaryFormat.Proofs.Lazy.Scan

/-!
# Resolving what a scan has left

A member is resolved in a frame that holds the named members before it, which
are resolved first.  Where the bytes of a member stand, the value that they
stand for is found, whatever else has been resolved by then.
-/

namespace BinaryFormat

namespace Codec

variable {defs : Definitions} {e : Engine} {names : List String} {known : Record Value}
  {ctx : Context} {store : LazyStore}

theorem shows_of_agreesOn (h : AgreesOn names known ctx) (eager : Value.EagerFields known) :
    Shows names known ctx := by
  refine ⟨fun name mem plain v => ?_, trivial⟩
  rw [h name mem plain]
  exact ⟨id, eager.get?⟩

private theorem AgreesOn.enter (h : AgreesOn names known ctx) {f : Format} {fs : List Format}
    (fresh : Fresh known (f :: fs)) {name : String} (named : f.name? = some name) (v : Value) :
    AgreesOn (name :: names) (known ++ [(name, v)]) (ctx.insert name v) := by
  intro other mem plain
  have new : name ∉ Record.keys known := by
    obtain ⟨distinct, -⟩ := fresh
    rw [namesOf_cons, named] at distinct
    exact fun mem => (List.nodup_append.mp distinct).2.2 name mem name List.mem_cons_self rfl
  show Record.get? (Record.insert ctx.innermost name v) other = _
  rw [← Record.insert_of_not_mem new v]
  by_cases eq : name = other
  · subst eq
    rw [Record.get?_insert_self, Record.get?_insert_self]
  · rw [Record.get?_insert_of_ne eq, Record.get?_insert_of_ne eq]
    rcases List.mem_cons.mp mem with rfl | mem
    · exact absurd rfl eq
    · exact h other mem plain

/-! ## Members of which some are resolved -/

/-- The bytes of every member, and the values of those that are known. -/
abbrev Gapped : Type := List (List UInt8 × Option Value)

namespace Gapped

def bytes (row : Gapped) : List UInt8 := (row.map Prod.fst).flatten

@[simp] theorem bytes_cons (data : List UInt8) (v : Option Value) (row : Gapped) :
    bytes ((data, v) :: row) = data ++ bytes row := rfl

theorem bytes_append (row others : Gapped) : bytes (row ++ others) = bytes row ++ bytes others := by
  simp [bytes]

end Gapped

/-- A row of which everything is known. -/
def Row.full (row : Row) : Gapped := row.map fun (bytes, v) => (bytes, some v)

theorem Row.bytes_full (row : Row) : Gapped.bytes row.full = row.bytes := by
  simp [Gapped.bytes, Row.full, Row.bytes, Function.comp_def]

/-- The entry of a member that has a name and is known. -/
def entered : Option String → Option Value → Record Value
  | some name, some v => [(name, v)]
  | _, _ => []

theorem entered_some (name : Option String) (v : Value) :
    entered name (some v) = entryOf name v := by
  cases name <;> rfl

/-- What is known of members stands.  Those that have a name are known, and the others have a
size. -/
def Told (defs : Definitions) : List String → Record Value → List Format → Gapped → Prop
  | _, _, [], [] => True
  | names, known, f :: fs, (bytes, value?) :: row =>
      (∀ v, value? = some v → Stands (fun e => f.codec e defs) names known bytes v) ∧
        (value? = none → f.name? = none ∧
          Sized (fun e => f.codec e defs) names known bytes.length) ∧
        Told defs (f.name?.toList ++ names) (known ++ entered f.name? value?) fs row
  | _, _, _, _ => False

/-- The values of the members that have a name, in order. -/
def notedOf : List Format → Gapped → Record Value
  | f :: fs, (_, value?) :: row => entered f.name? value? ++ notedOf fs row
  | _, _ => []

private theorem InRow.told : ∀ {fs : List Format} {row : Row} {names : List String}
    {known : Record Value}, InRow defs names known fs row → Told defs names known fs row.full
  | [], [], _, _, _ => trivial
  | f :: fs, (bytes, v) :: row, names, known, ⟨stands, later⟩ => by
      refine ⟨fun w same => ?_, nofun, ?_⟩
      · cases same
        exact stands
      · rw [entered_some]
        exact later.told

private theorem notedOf_full : ∀ (fs : List Format)
    (row : Row), notedOf fs row.full = entriesOf fs row.values
  | [], _ => by
      cases ‹Row› <;> rfl
  | _ :: _, [] => rfl
  | f :: fs, (_, v) :: row => by
      have later := notedOf_full fs row
      simp only [Row.full, List.map_cons, notedOf, entered_some, Row.values_cons,
        entriesOf] at later ⊢
      rw [later]

/-! ## The slots behind them -/

/-- The slots of members whose bytes follow one another. -/
def Shaped : Nat → List Format → Gapped → List Slot → Prop
  | _, [], [], [] => True
  | offset, f :: fs, (bytes, _) :: row, slot :: slots =>
      (∃ cache, IsSlot f offset cache slot) ∧ Shaped (offset + bytes.length) fs row slots
  | _, _, _, _ => False

/-- What was parsed on the spot is known. -/
def Caches (slots : List Slot) (row : Gapped) : Prop :=
  ∀ (i : Nat) (w : Value), slots[i]?.bind Slot.cache = some w → row[i]?.bind Prod.snd = some w

/-- What is known of members agrees with the marks of a scan. -/
def Fits : Gapped → Marks → Prop
  | [], [] => True
  | (bytes, value?) :: row, (n, cache) :: marks =>
      bytes.length = n ∧ (∀ w, cache = some w → value? = some w) ∧ Fits row marks
  | _, _ => False

theorem Fits.append : ∀ {row others : Gapped} {marks more : Marks}, Fits row marks →
    Fits others more → Fits (row ++ others) (marks ++ more)
  | [], _, [], _, _, h => h
  | _ :: _, _, _ :: _, _, ⟨length, cached, later⟩, h => ⟨length, cached, later.append h⟩

theorem fits_parsed : ∀ row : Row, Fits row.full row.parsed
  | [] => trivial
  | (_, _) :: row => ⟨rfl, fun _ same => same, fits_parsed row⟩

theorem fits_unparsed : ∀ row : Gapped, Fits row (unparsed (row.map fun entry => entry.1.length))
  | [] => trivial
  | (_, _) :: row => ⟨rfl, nofun, fits_unparsed row⟩

theorem SlotsAt.shaped : ∀ {fs : List Format} {marks : Marks} {slots : List Slot} {row : Gapped}
    {offset : Nat}, SlotsAt offset fs marks slots → Fits row marks →
      Shaped offset fs row slots ∧ Caches slots row
  | [], [], [], [], _, _, _ => ⟨trivial, fun _ _ found => by simp at found⟩
  | _ :: _, (_, cache) :: _, slot :: _, (_, _) :: _, _, ⟨here, later⟩, ⟨length, cached, fits⟩ => by
      obtain ⟨shaped, caches⟩ := later.shaped fits
      subst length
      refine ⟨⟨⟨cache, here⟩, shaped⟩, fun i w found => ?_⟩
      cases i with
      | zero =>
          have found : slot.cache = some w := found
          rw [here.cache] at found
          exact cached w found
      | succ i => exact caches i w found

/-- The members behind a handle, of which some are resolved. -/
structure Held (store : LazyStore) (handle : Handle) (data : List UInt8) (base : Nat)
    (ctx : Context) (fs : List Format) (row : Gapped) : Prop where
  stored : ∃ slots, store.members? handle = some ⟨data, base, ctx, slots, true⟩ ∧
    Shaped base fs row slots
  cached : ∀ (i : Nat) (w : Value), store.cached? handle i = some w →
    row[i]?.bind Prod.snd = some w

section Resolve

variable {handle : Handle} {data : List UInt8} {base : Nat} {ctx₀ : Context} {fs : List Format}
  {row : Gapped}

theorem Held.memo (h : Held store handle data base ctx₀ fs row) {i : Nat} {v : Value}
    (known : row[i]?.bind Prod.snd = some v) :
    Held (store.remember handle i v) handle data base ctx₀ fs row where
  stored := by
    rw [LazyStore.members?_remember]
    exact h.stored
  cached j w found := by
    rcases LazyStore.cached?_of_remember found with before | ⟨-, rfl, rfl⟩
    · exact h.cached j w before
    · exact known

variable {parse : Format → Path → Run Value} {m : Members} {i : Nat} {slot : Slot} {v : Value}

theorem value_of_cached (cached : store.cached? handle i = some v) :
    Members.value parse handle m i slot ctx store = .ok v store := by
  have got : (get : Lookup Failure LazyStore) store = .ok store store := rfl
  unfold Members.value
  rw [Run.bind_of_ok got, cached]
  rfl

theorem value_of_uncached (cached : store.cached? handle i = none) :
    Members.value parse handle m i slot ctx store =
      (do
        let v ← slot.parse parse m.data m.base ctx
        modify (·.remember handle i v)
        return v : Lookup Failure Value) store := by
  have got : (get : Lookup Failure LazyStore) store = .ok store store := rfl
  unfold Members.value
  rw [Run.bind_of_ok got, cached]

theorem slot_parse_eq_ok_iff (index : slot.index = none) {store' : LazyStore} :
    slot.parse parse data base ctx store = .ok v store' ↔
      ∃ s, parse slot.format slot.path
          ⟨.medium ⟨.snapshot base, data, slot.offset⟩, ctx, store⟩ = .ok v s ∧
        store' = s.store := by
  unfold Slot.parse
  rw [index]
  cases ran : Run.tagged (parse slot.format slot.path)
      ⟨.medium ⟨.snapshot base, data, slot.offset⟩, ctx, store⟩ with
  | ok w s =>
      have ran' := Run.tagged_eq_ok_iff.mp ran
      rw [ran']
      simp only [ran]
      constructor
      · intro same
        cases same
        exact ⟨s, rfl, rfl⟩
      · rintro ⟨s', same, rfl⟩
        cases same
        rfl
  | error failure s =>
      simp only [ran]
      refine ⟨nofun, ?_⟩
      rintro ⟨s', parsed, -⟩
      rw [Run.tagged_of_ok parsed] at ran
      cases ran

/-- A member that stands is resolved to its value. -/
private theorem value_of_stands (faithful : e.Faithful defs) (slots : List Slot) {f : Format}
    {bytes : List UInt8} {offset : Nat} {cache : Option Value}
    (held : Held store handle data base ctx₀ fs row) (known_at : row[i]?.bind Prod.snd = some v)
    (stands : Stands (fun e => f.codec e defs) names known bytes v)
    (agrees : AgreesOn names known ctx) (eager : Value.EagerFields known)
    (here : IsSlot f offset cache slot)
    (there : bytes <+: (⟨.snapshot base, data, offset⟩ : Medium).rest) :
    ∃ store', Members.value e.parse handle ⟨data, base, ctx₀, slots, true⟩ i slot ctx store =
        .ok v store' ∧ Held store' handle data base ctx₀ fs row := by
  cases cached : store.cached? handle i with
  | some w =>
      have same := held.cached _ _ cached
      rw [known_at] at same
      cases same
      exact ⟨store, value_of_cached cached, held⟩
  | none =>
      obtain ⟨inner, means⟩ := faithful.parse
      obtain ⟨notes, -, parsed⟩ := stands.2 inner slot.path ctx ⟨.snapshot base, data, offset⟩
        store (shows_of_agreesOn agrees eager) there
      refine ⟨store.remember handle i v, ?_, held.memo known_at⟩
      rw [value_of_uncached cached]
      refine Run.bind_eq_ok_iff.mpr ⟨v, store, ?_, rfl⟩
      rw [slot_parse_eq_ok_iff here.index, here.format, here.offset, means]
      exact ⟨_, parsed, rfl⟩

/-! ## The named members before one -/

theorem rest_of_snapshot (base : Nat) (first second : List UInt8) :
    (⟨.snapshot base, first ++ second, base + first.length⟩ : Medium).rest = second := by
  have inside : ¬ base + first.length < base := Nat.not_lt.mpr (Nat.le_add_right _ _)
  show (if base + first.length < base then [] else
    (first ++ second).drop (base + first.length - base)) = second
  rw [if_neg inside, Nat.add_sub_cancel_left, List.drop_left]

/-- The members before the wanted one are passed: those that have a name are entered. -/
private theorem chain_of_told (faithful : e.Faithful defs) (slots₀ more : List Slot) (k : Nat) :
    ∀ {gs : List Format} {part : Gapped} {slots : List Slot} {names : List String}
    {known : Record Value} {offset i : Nat} {ctx : Context} {store : LazyStore},
      Told defs names known gs part → Fresh known gs → Value.EagerFields known →
      AgreesOn names known ctx → Shaped offset gs part slots →
      (∀ j, j < part.length → row[i + j]? = part[j]?) →
      part.bytes <+: (⟨.snapshot base, data, offset⟩ : Medium).rest →
      Held store handle data base ctx₀ fs row →
        ∃ ctx' store', Members.chain e.parse handle ⟨data, base, ctx₀, slots₀, true⟩
          (slots ++ more) i
            (gs.length + k) ctx store =
              Members.chain e.parse handle ⟨data, base, ctx₀, slots₀, true⟩ more (i + gs.length) k
                ctx' store' ∧
          Held store' handle data base ctx₀ fs row ∧
          AgreesOn (namesAfter names gs) (known ++ notedOf gs part) ctx'
  | [], [], [], _, known, _, i, ctx, store, _, _, _, agrees, _, _, _, held => by
      refine ⟨ctx, store, ?_, held, ?_⟩
      · rw [List.length_nil, Nat.zero_add]
        rfl
      · have nothing : known ++ notedOf [] [] = known := List.append_nil known
        rw [nothing]
        exact agrees
  | f :: gs, (bytes, value?) :: part, slot :: slots, names, known, offset, i, ctx, store,
      ⟨stands, known_named, later⟩, fresh, eager, agrees, ⟨⟨cache, here⟩, shaped⟩, same, there,
      held => by
      have count : (f :: gs).length + k = (gs.length + k) + 1 := by
        rw [List.length_cons, Nat.add_right_comm]
      have reached : i + (f :: gs).length = i + 1 + gs.length := by
        rw [List.length_cons, Nat.add_right_comm, Nat.add_assoc]
      have at_i : row[i]? = some (bytes, value?) := same 0 (Nat.zero_lt_succ _)
      have same' (j : Nat) (low : j < part.length) : row[i + 1 + j]? = part[j]? := by
        rw [Nat.add_right_comm]
        exact same (j + 1) (Nat.succ_lt_succ low)
      rw [Gapped.bytes_cons] at there
      have first := (List.prefix_append bytes (Gapped.bytes part)).trans there
      have behind : Gapped.bytes part <+:
        (⟨.snapshot base, data, offset + bytes.length⟩ : Medium).rest := by
        obtain ⟨tail, eq⟩ := there
        have moved := Medium.rest_skip_of_le first.length_le
        refine ⟨tail, ?_⟩
        rw [← eq, List.append_assoc, List.drop_left] at moved
        exact moved.symm
      rw [count, reached, List.cons_append]
      rw [Members.chain, here.name]
      -- A member is entered if it has a name; only those are resolved on the way.
      cases named : f.name? with
      | none =>
          have nothing : known ++ entered none value? = known := List.append_nil known
          have new := fresh.rest Value.none
          rw [named] at later new
          rw [nothing] at later
          have new : Fresh known gs := by
            have none_noted : known ++ entryOf none Value.none = known := List.append_nil known
            rwa [none_noted] at new
          obtain ⟨ctx', store', passed, held', agrees'⟩ :=
            chain_of_told faithful slots₀ more k later
            new eager agrees shaped same' behind held
          refine ⟨ctx', store', passed, held', ?_⟩
          have all : namesAfter names (f :: gs) = namesAfter (f.name?.toList ++ names) gs := rfl
          rw [all, notedOf, named, ← List.append_assoc, nothing]
          exact agrees'
      | some name =>
          cases value? with
          | none =>
              have unnamed := (known_named rfl).1
              rw [named] at unnamed
              cases unnamed
          | some v =>
              have stands := stands v rfl
              obtain ⟨store₁, resolved, held₁⟩ := value_of_stands faithful slots₀ held
                (by rw [at_i]; rfl) stands agrees eager here first
              have entry : entryOf f.name? v = [(name, v)] := by rw [named]; rfl
              have new := fresh.rest v
              have eager' := eager_append eager (notes_entryOf f.name? stands.1).eager
              have agrees' := agrees.enter fresh named v
              rw [entry] at new eager'
              rw [named] at later
              obtain ⟨ctx', store', passed, held', agrees'⟩ :=
                chain_of_told faithful slots₀ more k later
                new eager' agrees' shaped same' behind held₁
              refine ⟨ctx', store', (Run.bind_of_ok resolved _).trans passed, held', ?_⟩
              have all : namesAfter names (f :: gs) = namesAfter (f.name?.toList ++ names) gs := rfl
              rw [all, notedOf, named, ← List.append_assoc]
              exact agrees'

theorem Told.length_eq : ∀ {gs : List Format} {part : Gapped} {names : List String}
    {known : Record Value}, Told defs names known gs part → gs.length = part.length
  | [], [], _, _, _ => rfl
  | _ :: _, _ :: _, _, _, h => congrArg (· + 1) h.2.2.length_eq

theorem Told.eager : ∀ {gs : List Format} {part : Gapped} {names : List String}
    {known : Record Value}, Told defs names known gs part → Value.EagerFields (notedOf gs part)
  | [], [], _, _, _ => trivial
  | f :: _, (_, none) :: _, _, _, h => by
      have nothing : entered f.name? none = [] := by cases f.name? <;> rfl
      rw [notedOf, nothing]
      exact h.2.2.eager
  | f :: _, (_, some v) :: _, _, _, h => by
      rw [notedOf, entered_some]
      exact eager_append (notes_entryOf f.name? (h.1 v rfl).1).eager h.2.2.eager

private theorem Shaped.split : ∀ {gs others : List Format} {part rest : Gapped} {slots : List Slot}
    {offset : Nat}, Shaped offset (gs ++ others) (part ++ rest) slots → gs.length = part.length →
      ∃ before after, slots = before ++ after ∧ Shaped offset gs part before ∧
        Shaped (offset + part.bytes.length) others rest after
  | [], _, [], _, slots, _, h, _ => ⟨[], slots, rfl, trivial, h⟩
  | _ :: _, _, (bytes, _) :: _, _, slot :: slots, offset, ⟨here, later⟩, h => by
      obtain ⟨before, after, rfl, first, second⟩ := later.split (Nat.succ.inj h)
      refine ⟨slot :: before, after, rfl, ⟨here, first⟩, ?_⟩
      rwa [Gapped.bytes_cons, List.length_append, ← Nat.add_assoc]

theorem resolve_of_cached (stored : store.members? handle = some m)
    (cached : store.cached? handle i = some v) :
    Lookup.resolve parse handle i store = .ok v store := by
  have got : (get : Lookup Failure LazyStore) store = .ok store store := rfl
  unfold Lookup.resolve Members.resolve
  rw [Run.bind_of_ok got, stored]
  dsimp only
  rw [Run.bind_of_ok got, cached]
  rfl

theorem resolve_of_uncached (stored : store.members? handle = some m) (chained : m.chained = true)
    (cached : store.cached? handle i = none) :
    Lookup.resolve parse handle i store =
      Members.chain parse handle m m.slots 0 i m.context store := by
  have got : (get : Lookup Failure LazyStore) store = .ok store store := rfl
  unfold Lookup.resolve Members.resolve
  rw [Run.bind_of_ok got, stored]
  dsimp only
  rw [Run.bind_of_ok got, cached, chained]
  rfl

/-- A member is parsed in a frame that holds the named ones before it. -/
theorem resolve_eq_value (faithful : e.Faithful defs) {f : Format} {before after : List Format}
    {entry : List UInt8 × Option Value} {part rest : Gapped}
    (held : Held store handle data base ctx₀ (before ++ f :: after) (part ++ entry :: rest))
    (told : Told defs [] [] before part) (fresh : Fresh [] (before ++ f :: after))
    (there : part.bytes <+: data) (uncached : store.cached? handle before.length = none) :
    ∃ slots slot cache ctx' store', Lookup.resolve e.parse handle before.length store =
        Members.value e.parse handle ⟨data, base, ctx₀, slots, true⟩ before.length slot ctx'
          store' ∧
      IsSlot f (base + part.bytes.length) cache slot ∧
      Held store' handle data base ctx₀ (before ++ f :: after) (part ++ entry :: rest) ∧
      AgreesOn (namesAfter [] before) (notedOf before part) ctx' := by
  have stays := held
  obtain ⟨slots, stored, shaped⟩ := held.stored
  obtain ⟨first, last, rfl, passed, shaped'⟩ := shaped.split told.length_eq
  cases last with
  | nil => exact shaped'.elim
  | cons slot others =>
      obtain ⟨⟨cache, here⟩, -⟩ := shaped'
      have all : (⟨.snapshot base, data, base⟩ : Medium).rest = data :=
        rest_of_snapshot base [] data
      have agrees : AgreesOn [] [] ctx₀ := fun _ mem => nomatch mem
      obtain ⟨ctx', store', passed, held', agrees'⟩ := chain_of_told faithful
        (first ++ slot :: others) (slot :: others) 0 told fresh.before trivial
        agrees passed (fun j low => by rw [Nat.zero_add, List.getElem?_append_left low])
        (by rw [all]; exact there) stays
      refine ⟨first ++ slot :: others, slot, cache, ctx', store', ?_, here, held', agrees'⟩
      rw [resolve_of_uncached stored rfl uncached]
      rw [Nat.add_zero, Nat.zero_add] at passed
      exact passed

/-! ## Rows -/

theorem Row.full_append (row others : Row) : (row ++ others).full = row.full ++ others.full :=
  List.map_append

theorem resolve_of_told (faithful : e.Faithful defs) {before after : List Format} {f : Format}
    {part rest : Gapped} {bytes : List UInt8}
    (held : Held store handle (part ++ (bytes, some v) :: rest).bytes base ctx₀
      (before ++ f :: after)
      (part ++ (bytes, some v) :: rest))
    (told : Told defs [] [] before part)
    (stands : Stands (fun e => f.codec e defs) (namesAfter [] before) (notedOf before part) bytes v)
    (fresh : Fresh [] (before ++ f :: after)) :
    ∃ store', Lookup.resolve e.parse handle before.length store = .ok v store' ∧
      Held store' handle (part ++ (bytes, some v) :: rest).bytes base ctx₀ (before ++ f :: after)
        (part ++ (bytes, some v) :: rest) := by
  have known_at : (part ++ (bytes, some v) :: rest)[before.length]?.bind Prod.snd = some v := by
    rw [told.length_eq, List.getElem?_append_right (Nat.le_refl _), Nat.sub_self]
    rfl
  cases cached : store.cached? handle before.length with
  | some w =>
      have same := held.cached _ _ cached
      rw [known_at] at same
      cases same
      have stays := held
      obtain ⟨slots, stored, -⟩ := held.stored
      exact ⟨store, resolve_of_cached stored cached, stays⟩
  | none =>
      obtain ⟨slots, slot, cache, ctx', store', resolved, here, held', agrees⟩ :=
        resolve_eq_value faithful held told fresh
          (by rw [Gapped.bytes_append]; exact List.prefix_append _ _) cached
      have there : bytes <+: (⟨.snapshot base, (part ++ (bytes, some v) :: rest).bytes,
          base + part.bytes.length⟩ : Medium).rest := by
        rw [Gapped.bytes_append, Gapped.bytes_cons, rest_of_snapshot]
        exact List.prefix_append _ _
      obtain ⟨store₂, found, held₂⟩ := value_of_stands faithful slots held' known_at
        stands agrees told.eager here there
      exact ⟨store₂, resolved.trans found, held₂⟩

/-- Every member of a row resolves to its value. -/
private theorem resolve_of_row (faithful : e.Faithful defs) {before after : List Format}
    {f : Format}
    {part rest : Row} {bytes : List UInt8}
    (held : Held store handle (part ++ (bytes, v) :: rest).bytes base ctx₀ (before ++ f :: after)
      (part ++ (bytes, v) :: rest).full)
    (inRow : InRow defs [] [] before part)
    (stands : Stands (fun e => f.codec e defs) (namesAfter [] before) (entriesOf before part.values)
      bytes v)
    (fresh : Fresh [] (before ++ f :: after)) :
    ∃ store', Lookup.resolve e.parse handle before.length store = .ok v store' ∧
      Held store' handle (part ++ (bytes, v) :: rest).bytes base ctx₀ (before ++ f :: after)
        (part ++ (bytes, v) :: rest).full := by
  rw [← notedOf_full] at stands
  rw [← Row.bytes_full, Row.full_append] at held ⊢
  exact resolve_of_told faithful held inRow.told stands fresh

theorem forceMembers_of_row (faithful : e.Faithful defs) {fs : List Format} {full : Row} :
    ∀ {after : List Format} {rest : Row}
    {slots : List Slot} (before : List Format) (part : Row) {offset : Nat} {store : LazyStore},
      fs = before ++ after → full = part ++ rest → InRow defs [] [] before part →
      InRow defs (namesAfter [] before) (entriesOf before part.values) after rest →
      Fresh [] fs → Shaped offset after rest.full slots →
      Held store handle full.bytes base ctx₀ fs full.full →
        ∃ store', Value.forceMembers ⟨Lookup.resolve e.parse, e.forceMember⟩ handle slots
            before.length (entriesOf before part.values) store =
              .ok (entriesOf fs full.values) store'
  | [], [], [], before, part, _, store, eq, eq', _, _, _, _, _ => by
      rw [List.append_nil] at eq eq'
      subst eq eq'
      exact ⟨store, rfl⟩
  | f :: after, (bytes, v) :: rest, slot :: slots, before, part, offset, store, eq, eq', inRow,
      ⟨stands, later⟩, fresh, ⟨⟨cache, here⟩, shaped⟩, held => by
      subst eq eq'
      have taken : InRow defs [] [] (before ++ [f]) (part ++ [(bytes, v)]) :=
        inRow.append ⟨stands, trivial⟩
      rw [← namesAfter_snoc, ← entriesOf_snoc inRow f bytes v] at later
      -- The members behind are forced to the rest, from whatever store forcing this one has left.
      have next (store : LazyStore)
          (held : Held store handle (part ++ (bytes, v) :: rest).bytes base ctx₀
            (before ++ f :: after) (part ++ (bytes, v) :: rest).full) :=
        forceMembers_of_row faithful _ _ (List.append_cons before f after)
          (List.append_cons part (bytes, v) rest) taken later fresh shaped held
      rw [List.length_append, List.length_singleton, entriesOf_snoc inRow f bytes v] at next
      rw [Value.forceMembers, here.name]
      cases named : f.name? with
      | none =>
          obtain ⟨store', forced⟩ := next store held
          rw [named] at forced
          have nothing : entryOf none v = [] := rfl
          rw [nothing, List.append_nil] at forced
          exact ⟨store', forced⟩
      | some name =>
          obtain ⟨store₁, resolved, held₁⟩ := resolve_of_row faithful held inRow stands fresh
          obtain ⟨store', forced⟩ := next store₁ held₁
          refine ⟨store', ?_⟩
          dsimp only
          rw [Run.bind_of_ok resolved, faithful.force v stands.1, pure_bind]
          have new : name ∉ Record.keys (entriesOf before part.values) := by
            have distinct := (fresh.after inRow.length_eq).distinct
            rw [namesOf_cons, named] at distinct
            exact fun mem => (List.nodup_append.mp distinct).2.2 name mem name
              List.mem_cons_self rfl
          rw [Record.insert_of_not_mem new]
          rw [named] at forced
          exact forced

theorem forceElements_of_row (faithful : e.Faithful defs) {fs : List Format} {full : Row} :
    ∀ {after : List Format} {rest : Row} (before : List Format) (part : Row) {store : LazyStore},
      fs = before ++ after → full = part ++ rest → InRow defs [] [] before part →
      InRow defs (namesAfter [] before) (entriesOf before part.values) after rest →
      Fresh [] fs → Held store handle full.bytes base ctx₀ fs full.full →
        ∃ store', Value.forceElements ⟨Lookup.resolve e.parse, e.forceMember⟩ handle after.length
            before.length store = .ok rest.values store'
  | [], [], _, _, store, _, _, _, _, _, _ => ⟨store, rfl⟩
  | f :: after, (bytes, v) :: rest, before, part, store, eq, eq', inRow, ⟨stands, later⟩, fresh,
      held => by
      subst eq eq'
      have taken : InRow defs [] [] (before ++ [f]) (part ++ [(bytes, v)]) :=
        inRow.append ⟨stands, trivial⟩
      rw [← namesAfter_snoc, ← entriesOf_snoc inRow f bytes v] at later
      obtain ⟨store₁, resolved, held₁⟩ := resolve_of_row faithful held inRow stands fresh
      obtain ⟨store', forced⟩ := forceElements_of_row faithful _ _ (List.append_cons before f after)
        (List.append_cons part (bytes, v) rest) taken later fresh held₁
      rw [List.length_append, List.length_singleton] at forced
      refine ⟨store', ?_⟩
      rw [List.length_cons, Value.forceElements, Run.bind_of_ok resolved]
      dsimp only
      rw [faithful.force v stands.1, pure_bind, Run.bind_of_ok forced]
      rfl

end Resolve

end Codec

end BinaryFormat
