import BinaryFormat.Proofs.RoundTrip.Success

/-!
# Round trip

Whatever a plain format was built into is parsed again, from the front of any
byte string that starts with it, and what was parsed is built into the same
bytes once more.
-/

namespace BinaryFormat

namespace Value

mutual

theorem bounds_of_exact : ∀ {v p : Value}, v.Extends true p → v.Bounds p
  | list vs, list ps, h => by
      intro us given
      cases given
      simp only [Extends] at h
      exact boundsItems_of_exact h
  | container fs, container ps, h => by
      intro input given
      cases given
      simp only [Extends, true_implies] at h
      exact ⟨h.2.2, boundsFields_of_exact h.2.1⟩
  | none, p, h | bool _, p, h | int _, p, h | bytes _, p, h | str _, p, h => by
      simp [Bounds]

theorem boundsItems_of_exact : ∀ {vs ps : List Value}, ExtendsItems true vs ps →
    BoundsItems vs ps
  | [], [], _ => by simp [BoundsItems]
  | v :: vs, p :: ps, h => by
      simp only [ExtendsItems] at h
      exact ⟨bounds_of_exact h.1, boundsItems_of_exact h.2⟩

theorem boundsFields_of_exact : ∀ {fs : List (String × Value)} {ps : Record Value},
    ExtendsFields true fs ps → BoundsFields fs ps
  | [], _, _ => by simp [BoundsFields]
  | (key, v) :: rest, ps, h => by
      simp only [ExtendsFields] at h
      refine ⟨fun shown u found => ?_, boundsFields_of_exact h.2⟩
      obtain ⟨y, hy, ext⟩ := h.1 shown
      rw [found] at hy
      cases hy
      exact bounds_of_exact ext

end

end Value

namespace Format

/-! ## What was given is what is parsed -/

mutual

/-- `Conveys f u p`: the value `p` holds what `u` gave to the format, beside what the
format supplies itself. -/
def Conveys : Format → Value → Value → Prop
  | integer _ _ _, u, p | varint _, u, p | zigzag, u, p => ∃ n, u.int? = some n ∧ p = .int n
  | flag, u, p => ∃ b, u.bit? = some b ∧ p = .bool b
  | bytes _, u, p | greedyBytes, u, p => p = u
  | prefixedText _ _, u, p | terminatedText _ _, u, p => p = u
  | constant _ value, _, p => p = value
  | pass, _, p => p = .none
  | named _ of, u, p | documented _ of, u, p => Conveys of u p
  | prefixed _ of _ _, u, p | fixedSized _ of, u, p => Conveys of u p
  | padded _ of _, u, p | aligned _ of _, u, p => Conveys of u p
  | array _ of _, u, p | prefixedArray _ of, u, p | greedyRange of _, u, p =>
      ∃ us ps, u.elements? = some us ∧ p = .list ps ∧ List.Forall₂ (Conveys of) us ps
  | sequence items, u, p =>
      ∃ us ps, u.elements? = some us ∧ p = .list ps ∧ ConveysItems items us ps
  | struct fields _, u, p =>
      ∃ input record, u.entries? = some input ∧ p = .container record ∧
        ConveysFields fields input record
  | branch _ yes no, u, p => Conveys yes u p ∨ Conveys no u p
  | switch _ cases otherwise, u, p => ConveysCase cases u p ∨ ConveysIf otherwise u p
  | rebuild of _, _, p => ∃ n : Nat, Conveys of (.ofNat n) p
  | _, _, _ => False

def ConveysItems : List Format → List Value → List Value → Prop
  | [], [], [] => True
  | f :: fs, u :: us, p :: ps => Conveys f u p ∧ ConveysItems fs us ps
  | _, _, _ => False

/-- A field that the record lacks supplies itself. -/
def ConveysFields : List Format → Record Value → Record Value → Prop
  | [], _, _ => True
  | f :: rest, input, record =>
      (∀ name, f.name? = some name → ∃ p, Record.get? record name = some p ∧
        (Record.get? input name = none → f.isSelfSupplying = true) ∧
        Conveys f ((Record.get? input name).getD .none) p) ∧
      ConveysFields rest input record

def ConveysCase : List (Value × Format) → Value → Value → Prop
  | [], _, _ => False
  | (_, f) :: rest, u, p => Conveys f u p ∨ ConveysCase rest u p

def ConveysIf : Option Format → Value → Value → Prop
  | none, _, _ => False
  | some f, u, p => Conveys f u p

end

private theorem conveys_of_caseOf {n : Int} {otherwise : Option Format}
    {cases : List (Value × Format)}
    {f : Format} {u p : Value} (chosen : caseOf n otherwise cases = some f)
    (h : Conveys f u p) : ConveysCase cases u p ∨ ConveysIf otherwise u p := by
  induction cases with
  | nil =>
      rw [caseOf] at chosen
      rw [chosen]
      exact Or.inr h
  | cons c rest ih =>
      rw [caseOf] at chosen
      split at chosen
      · cases chosen
        exact Or.inl (Or.inl h)
      · rcases ih chosen with found | found
        · exact Or.inl (Or.inr found)
        · exact Or.inr found

mutual

theorem Encodes.conveys {toEnd : Bool} {near : Surroundings} {f : Format} {u v p : Value}
    {data : List UInt8} : Encodes toEnd near f u v data → v.Extends true p → Conveys f u p
  | .integer _ _ given _, ext => ⟨_, given, Value.eq_of_extends_int ext⟩
  | .flag given, ext => by
      obtain rfl := eq_of_extends_atom ext (Or.inl rfl) rfl
      exact ⟨_, given, rfl⟩
  | .varint given _ _, ext => ⟨_, given, Value.eq_of_extends_int ext⟩
  | .zigzag given, ext => ⟨_, given, Value.eq_of_extends_int ext⟩
  | .bytes _, ext => by
      obtain rfl := eq_of_extends_atom ext (Or.inr ⟨_, rfl⟩) rfl
      exact rfl
  | .literal _, ext => by
      obtain rfl := eq_of_extends_atom ext (Or.inr ⟨_, rfl⟩) rfl
      exact rfl
  | .prefixedText _ _, ext => by
      obtain rfl := eq_of_extends_atom ext (Or.inl rfl) rfl
      exact rfl
  | .terminatedText _ _ _, ext => by
      obtain rfl := eq_of_extends_atom ext (Or.inl rfl) rfl
      exact rfl
  | .named inner, ext => by
      have h := Encodes.conveys inner ext
      exact h
  | .documented inner, ext => by
      have h := Encodes.conveys inner ext
      exact h
  -- Lists and records convey what they were given part by part.
  | .array given _ each, ext => by
      obtain ⟨ps, rfl, exts⟩ := exists_list_of_extends ext
      exact ⟨_, ps, given, rfl, EncodesEach.conveys each exts⟩
  | .prefixedArray given _ _ each, ext => by
      obtain ⟨ps, rfl, exts⟩ := exists_list_of_extends ext
      exact ⟨_, ps, given, rfl, EncodesEach.conveys each exts⟩
  | .enclosed inner _ _, ext => by
      have h := Encodes.conveys inner ext
      exact h
  | .fixedSized inner _ _, ext => by
      have h := Encodes.conveys inner ext
      exact h
  | .padded inner _ _, ext => by
      have h := Encodes.conveys inner ext
      exact h
  | .aligned inner _ _, ext => by
      have h := Encodes.conveys inner ext
      exact h
  | .sequence given each, ext => by
      obtain ⟨ps, rfl, exts⟩ := exists_list_of_extends ext
      exact ⟨_, ps, given, rfl, EncodesItems.conveys each exts⟩
  | .struct given _ distinct _ each, ext => by
      obtain ⟨gs, rfl, -, exts⟩ := exists_container_of_extends ext
      exact ⟨_, gs, given, rfl,
        EncodesFields.conveys each (fun k x hx => each.entries distinct exts hx)⟩
  | .branch _ _ inner, ext => by
      have h := Encodes.conveys inner ext
      split at h
      · exact Or.inr h
      · exact Or.inl h
  | .switch _ _ _ chosen inner, ext => conveys_of_caseOf chosen (Encodes.conveys inner ext)
  | .rebuild _ _ _ inner, ext => ⟨_, Encodes.conveys inner ext⟩
  | .pass, ext => by
      obtain rfl := eq_of_extends_atom ext (Or.inl rfl) rfl
      exact rfl
  | .greedyBytes, ext => by
      obtain rfl := eq_of_extends_atom ext (Or.inr ⟨_, rfl⟩) rfl
      exact rfl
  | .greedyRange given _ each _ _ _, ext => by
      obtain ⟨ps, rfl, exts⟩ := exists_list_of_extends ext
      exact ⟨_, ps, given, rfl, EncodesEach.conveys each exts⟩

theorem EncodesEach.conveys {near : Surroundings} {of : Format} {us vs ps : List Value}
    {parts : List (List UInt8)} : EncodesEach near of us vs parts →
      Value.ExtendsItems true vs ps → List.Forall₂ (Conveys of) us ps
  | .nil, ext => by
      cases ps with
      | nil => exact .nil
      | cons p ps => simp [Value.ExtendsItems] at ext
  | .cons head tail, ext => by
      cases ps with
      | nil => simp [Value.ExtendsItems] at ext
      | cons p ps =>
          simp only [Value.ExtendsItems] at ext
          exact .cons (Encodes.conveys head ext.1) (EncodesEach.conveys tail ext.2)

theorem EncodesItems.conveys {items : List Format} {us vs ps : List Value}
    {data : List UInt8} : EncodesItems items us vs data →
      Value.ExtendsItems true vs ps → ConveysItems items us ps
  | .nil, ext => by
      cases ps with
      | nil => simp [ConveysItems]
      | cons p ps => simp [Value.ExtendsItems] at ext
  | .cons head tail, ext => by
      cases ps with
      | nil => simp [Value.ExtendsItems] at ext
      | cons p ps =>
          simp only [Value.ExtendsItems] at ext
          exact ⟨Encodes.conveys head ext.1, EncodesItems.conveys tail ext.2⟩

theorem EncodesFields.conveys {near : Surroundings} {input gs : Record Value}
    {fields : List Format} {record : Record Value} {data : List UInt8} :
    EncodesFields near input fields record data →
      (∀ k x, (k, x) ∈ record → ∃ y, Record.get? gs k = some y ∧ x.Extends true y) →
      ConveysFields fields input gs
  | .nil, _ => trivial
  | .named hasName _ given head tail, exts => by
      refine ⟨fun name own => ?_, EncodesFields.conveys tail
        (fun k x hx => exts k x (List.mem_cons_of_mem _ hx))⟩
      rw [hasName] at own
      cases own
      obtain ⟨y, found, ext⟩ := exts _ _ List.mem_cons_self
      have inner := Encodes.conveys head ext
      rcases given with given | ⟨missing, supplies, rfl⟩
      · refine ⟨y, found, fun missing => ?_, ?_⟩
        · rw [given] at missing
          cases missing
        · rw [given]
          exact inner
      · refine ⟨y, found, fun _ => supplies, ?_⟩
        rw [missing]
        exact inner
  | .unnamed hasNone _ _ tail, exts => by
      refine ⟨fun name own => ?_, EncodesFields.conveys tail exts⟩
      rw [hasNone] at own
      cases own

end

/-! ## Whole runs -/

variable {defs : Definitions} {f : Format} {params : Record Value} {store : LazyStore}

/-- An encoding is what a whole run writes. -/
private theorem Encodes.buildBytes {u v : Value} {data : List UInt8}
    (h : Encodes false .nothing f u v data) (defs : Definitions) (params : Record Value)
    (store : LazyStore) :
    ∃ w s, f.buildBytes (.ofDefinitions defs) u params store = .ok w s ∧
      s.stream.data = data ∧ v.Extends false w ∧ (v.Bounds u → v.Extends true w) := by
  have held := Surroundings.held_nothing (.ofParams params)
  have counted := Surroundings.counted_nothing (.ofParams params)
  obtain ⟨w, ctx, built, quiet, ext⟩ :=
    h.writes (inner defs) defs [] (.ofParams params) store .this held counted
  exact ⟨w, ⟨.atEnd data, ctx, store⟩, buildBytes_of_build quiet.deferred built, rfl, ext⟩

/-- An encoding is what a whole run reads. -/
private theorem Encodes.parseBytes {u v : Value} {data : List UInt8}
    (h : Encodes false .nothing f u v data) (proper : u.Proper)
    (small : data.length ≤ Value.maxSize) (defs : Definitions) (params : Record Value)
    (store : LazyStore) (rest : List UInt8) :
    ∃ p s, f.parseBytes (.ofDefinitions defs) params (data ++ rest) store = .ok p s ∧
      s.stream.pos = data.length ∧ v.Extends true p := by
  have held := Surroundings.held_nothing (.ofParams params)
  obtain ⟨p, ctx, parsed, -, ext⟩ := h.reads (inner defs) defs proper small
    ⟨.growing, data ++ rest, 0⟩ rest (.ofParams params) store .this rfl (by simp) held
  refine ⟨p, _, Run.tagged_of_ok parsed, ?_, ext⟩
  exact Nat.zero_add data.length

/-- What a plain format was built into is parsed from the front of any byte string that
starts with it, up to its end.  The value holds what was given, the value as built holds
all of it, and building it again yields the same bytes and the same value. -/
theorem parseBytes_of_buildBytes {u w : Value} {s : State} (plain : f.Plain false .nothing)
    (proper : u.Proper)
    (built : f.buildBytes (.ofDefinitions defs) u params store = .ok w s)
    (small : s.stream.data.length ≤ Value.maxSize) (params' : Record Value)
    (store' : LazyStore) (rest : List UInt8) :
    ∃ p s', f.parseBytes (.ofDefinitions defs) params' (s.stream.data ++ rest) store' =
        .ok p s' ∧
      s'.stream.pos = s.stream.data.length ∧ f.Conveys u p ∧ p.Extends false w ∧
      ∃ w' s'', f.buildBytes (.ofDefinitions defs) p params' store' = .ok w' s'' ∧
        s''.stream.data = s.stream.data ∧ p.same w' = true := by
  obtain ⟨s₁, alone, -⟩ := build_of_buildBytes built
  have accounted : Accounted (inner defs) defs false .nothing f :=
    Plain.accounted (inner defs) defs f false .nothing plain .nothing
      (Visible.known_nothing _)
  obtain ⟨v, data, encoded⟩ := accounted u [] (.ofParams params) store .this w s₁ proper
    (Surroundings.held_nothing _) (Surroundings.counted_nothing _) alone
  obtain ⟨w₁, s₂, built', rfl, ext, -⟩ := encoded.buildBytes defs params store
  cases built.symm.trans built'
  obtain ⟨p, s', parsed, consumed, exact_⟩ :=
    encoded.parseBytes proper small defs params' store' rest
  obtain ⟨w', s'', again, same, -, exact'⟩ :=
    (encoded.again exact_).buildBytes defs params' store'
  exact ⟨p, s', parsed, consumed, encoded.conveys exact_, Value.extends_of_exact exact_ ext,
    w', s'', again, same,
    Value.same_of_extends exact_ (exact' (Value.bounds_of_exact exact_))⟩

/-- Bytes behind their number, which is taken from the list. -/
def countedBytes : Format :=
  .struct
    [.named "n" (.rebuild (.unsigned 1 .big) (.lengthOf "xs")),
      .named "xs" (.array (.field "n") (.unsigned 1 .big) false)] false

theorem countedBytes_round_trip :
    ∃ w s, countedBytes.buildBytes (.ofDefinitions [])
        (.container [("xs", .list [.int 7, .int 9])]) [] .empty = .ok w s ∧
      s.stream.data = [2, 7, 9] ∧
      ∃ p s', countedBytes.parseBytes (.ofDefinitions []) [] ([2, 7, 9] ++ [255]) .empty =
          .ok p s' ∧ s'.stream.pos = 3 ∧ p.Extends false w := by
  have plain : countedBytes.Plain false .nothing := by
    refine ⟨⟨by decide, by decide⟩, ⟨rfl, ⟨1, rfl, by decide, by decide⟩, "xs", ?_, rfl⟩,
      ⟨Or.inr ⟨"n", ?_, rfl⟩, rfl, ⟨1, rfl, by decide, by decide⟩⟩, trivial⟩
    · decide
    · decide
  have proper : (Value.container [("xs", .list [.int 7, .int 9])]).Proper := by
    simp only [Value.Proper, Value.ProperFields, Value.ProperItems, Record.keys]
    refine ⟨by decide, ⟨by decide, by decide, by decide, trivial⟩, trivial⟩
  have left : Run.left? (countedBytes.buildBytes (.ofDefinitions [])
      (.container [("xs", .list [.int 7, .int 9])]) [] .empty) = some ([2, 7, 9], 3) := by
    decide +kernel
  obtain ⟨w, s, built, data, -⟩ := Run.ok_of_left? left
  obtain ⟨p, s', parsed, consumed, -, ext, -⟩ := parseBytes_of_buildBytes plain proper built
    (by rw [data]; decide) [] .empty [255]
  rw [data] at parsed consumed
  exact ⟨w, s, built, data, p, s', parsed, consumed, ext⟩

end Format

end BinaryFormat
