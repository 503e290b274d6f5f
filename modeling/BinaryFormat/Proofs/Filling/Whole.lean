import BinaryFormat.Proofs.Filling.Items

/-!
# Built and parsed again

Every component of such a format is parsed as it was built, by induction on the
format; so is what a whole run builds.  A value shows a placeholder only where
it was copied before its patch could be computed.
-/

namespace BinaryFormat

namespace Format

variable {e : Engine} {defs : Definitions}

mutual

/-- Every component fulfils what it is built for; one case for each constructor of the class. -/
private theorem fulfils_codec (serves : Serves defs e) (patches : BuildsPatches defs e)
    {visible : Bool}
    {path : Path} {now later : List (Record Format)} {u : Value} :
    ∀ f : Format, f.Framed visible path now → f.Accepts u →
      f.Fulfils e defs visible path now later u := by
  intro f framed accepts
  cases f with
  | integer width signed endian =>
      simp only [Framed] at framed
      obtain ⟨n, leaf⟩ := framed
      exact fulfils_leaf serves leaf
  | bytes length =>
      simp only [Framed] at framed
      obtain ⟨n, leaf⟩ := framed
      exact fulfils_leaf serves leaf
  | constant of value =>
      simp only [Framed] at framed
      obtain ⟨⟨n, leaf⟩, atom, small⟩ := framed
      exact fulfils_constant serves leaf atom small
  | rebuild of expr =>
      simp only [Framed] at framed
      obtain ⟨⟨n, leaf⟩, known⟩ := framed
      exact fulfils_rebuild serves leaf expr known
  | checksum of hash data =>
      simp only [Framed] at framed
      obtain ⟨⟨n, leaf⟩, sighted⟩ := framed
      exact fulfils_checksum serves leaf hash sighted
  | named name of =>
      simp only [Framed] at framed
      simp only [Accepts] at accepts
      exact (fulfils_codec serves patches of framed accepts).named name
  | documented docs of =>
      simp only [Framed] at framed
      simp only [Accepts] at accepts
      exact (fulfils_codec serves patches of framed accepts).documented docs
  | rawCopy of =>
      simp only [Framed] at framed
      exact fulfils_rawCopy accepts
        (fun v accepted => fulfils_codec serves patches of framed accepted)
        fun copyless => rereads_codec of framed copyless
  | struct fields overwrite =>
      simp only [Framed] at framed
      obtain ⟨distinct, framed⟩ := framed
      exact fulfils_struct patches accepts fun input accepted =>
        fulfils_fields serves patches fields (fun _ mem => mem) distinct framed accepted
  | sequence items =>
      simp only [Framed] at framed
      exact fulfils_sequence patches accepts fun us count accepted =>
        fulfils_items serves patches items count framed accepted
  | focused focus items =>
      simp only [Framed] at framed
      exact fulfils_focused patches accepts fun us count accepted =>
        fulfils_items serves patches items count framed accepted
  | _ => simp only [Framed] at framed

theorem fulfils_fields (serves : Serves defs e) (patches : BuildsPatches defs e) {visible : Bool}
    {path : Path} {names : List String} {whole : Record Format} {now : List (Record Format)}
    {front : Record Format} {input : Record Value} : ∀ fields : List Format,
      (∀ key ∈ fieldNames fields, key ∈ names) → (fieldNames fields).Nodup →
      FramedFields visible path names now front fields → FieldsAccept fields input →
      FieldsFulfil e defs visible path names whole now front input fields
  | [], _, _, _, _ => .nil
  | f :: rest, within, distinct, framed, accepts => by
      simp only [FramedFields] at framed
      simp only [FieldsAccept] at accepts
      obtain ⟨first, addressed, others⟩ := framed
      exact .cons (flat_of_framed first) within distinct addressed
        (fulfils_codec serves patches f first accepts.1)
        (fulfils_fields serves patches rest
          (fun key mem => within key (mem_fieldNames_cons.mpr (Or.inr mem)))
          (distinct_rest distinct).1 others accepts.2)

theorem fulfils_items (serves : Serves defs e) (patches : BuildsPatches defs e)
    {visible : Nat → Bool} {path : Path} {now : List (Record Format)} {front : Record Format}
    {i : Nat} : ∀ (items : List Format) {us : List Value}, items.length = us.length →
      FramedItems visible path now front i items → ItemsAccept items us →
      ItemsFulfil e defs visible path now front i items us
  | [], _, _, _, _ => .nil
  | f :: rest, [], count, _, _ => by cases count
  | f :: rest, u :: us, count, framed, accepts => by
      simp only [FramedItems] at framed
      simp only [ItemsAccept] at accepts
      exact .cons (fulfils_codec serves patches f framed.1 accepts.1)
        (fulfils_items serves patches rest (Nat.succ.inj count) framed.2 accepts.2)

end

/-! ## Whole runs -/

private theorem buildsPatches_ofDefinitions (defs : Definitions) :
    BuildsPatches defs (.ofDefinitions defs) :=
  fun _ _ _ => ⟨inner defs, serves_inner defs, rfl⟩

private theorem shown_nil (frames : List (Record Value)) : Shown [] frames := nofun

/-- What is built is parsed again as what the run returns, with values for placeholders that it
still shows, as far as its raw copies are those of the bytes in the end.  If everything that is
computed is known when its structure is complete, no placeholder is left, the raw copies are up to
date, and the parsed value is the one that was returned. -/
theorem reparsed_of_buildBytes {f : Format} {u w : Value} {params : Record Value}
    {store : LazyStore} {s : State} (framed : f.Framed true .this []) (accepts : f.Accepts u)
    (built : f.buildBytes (.ofDefinitions defs) u params store = .ok w s) (small : w.InRange) :
    (f.UpToDate s.stream.data w → ∀ (params' : Record Value) (store' : LazyStore)
      (rest : List UInt8), ∃ p s', f.parseBytes (.ofDefinitions defs) params'
          (s.stream.data ++ rest) store' = .ok p s' ∧
        s'.stream.pos = s.stream.data.length ∧ w.FillsTo p ∧
          (w.isFilled = true → w.same p = true)) ∧
    (f.Timely [] [] → w.isFilled = true ∧ ∀ (params' : Record Value) (store' : LazyStore)
      (rest : List UInt8), ∃ p s', f.parseBytes (.ofDefinitions defs) params'
          (s.stream.data ++ rest) store' = .ok p s' ∧
        s'.stream.pos = s.stream.data.length ∧ w.same p = true) := by
  obtain ⟨s₁, run, resolved⟩ := build_of_buildBytes built
  obtain ⟨part, new, store₁, rfl, tidy, -, -, inTime, parses⟩ :=
    fulfils_codec (serves_inner defs) (buildsPatches_inner defs) f framed accepts []
      (.ofParams params) store w s₁ run
  have queue : ((Context.ofParams params).queued new).top.deferred = new := rfl
  obtain ⟨part', ctx', store₂, rfl, settled, resolution⟩ :=
    Engine.resolution_of_resolveSince (buildsPatches_ofDefinitions defs) tidy resolved
  -- A whole run resolves strictly, so nothing is pending at its end.
  rw [queue, settled rfl] at resolution
  have length : part'.length = part.length := resolution.length
  have firm : Firm defs 0 part new part' :=
    (resolution.firm [] part' tidy (.refl 0 [] part' rfl)).1
  have filling (current : f.UpToDate part' w) (params' : Record Value) (store' : LazyStore)
      (rest : List UInt8) : ∃ p s', f.parseBytes (.ofDefinitions defs) params' (part' ++ rest)
        store' = .ok p s' ∧ s'.stream.pos = part'.length ∧ w.FillsTo p := by
    have next : (⟨.growing, part' ++ rest, 0⟩ : Medium).rest =
        (part'.drop 0).take part.length ++ rest := by
      rw [List.drop_zero, ← length, List.take_length]
      rfl
    obtain ⟨p, ctx₃, parsed, -, fills, -⟩ := parses part' w firm (Or.inl rfl)
      (Or.inr ⟨current, small⟩) ⟨.growing, part' ++ rest, 0⟩ rest (.ofParams params') store' .this
      rfl next (.nil _ _)
    exact ⟨p, _, Run.tagged_of_ok parsed, (Nat.zero_add _).trans length.symm, fills⟩
  refine ⟨fun current params' store' rest => ?_, fun timely => ?_⟩
  · obtain ⟨p, s', parsed, pos, fills⟩ := filling current params' store' rest
    exact ⟨p, s', parsed, pos, fills, fills.same⟩
  · obtain ⟨none, filled, current⟩ := (inTime timely (shown_nil _)).at_once (shown_nil _)
    rw [none] at firm
    refine ⟨filled, fun params' store' rest => ?_⟩
    obtain ⟨p, s', parsed, pos, fills⟩ := filling (current part' firm) params' store' rest
    exact ⟨p, s', parsed, pos, fills.same filled⟩

/-- The length of a copy is noted in front of it and its sum behind it, with the item of a list in
focus. -/
def stamped : Format :=
  .struct [
    .named "n" (.rebuild (.unsigned 1 .big) (.walk 0 "r" [.entry "length"])),
    .named "r" (.rawCopy (.struct [.named "a" (.unsigned 2 .big)] false)),
    .named "sum" (.checksum (.unsigned 1 .big) Checksums.sum (.walk 0 "r" [.entry "data"])),
    .named "x" (.focused (.position 1) [.constant (.unsigned 1 .big) (.int 7),
      .sequence [.unsigned 1 .big]])]
    false

/-- What it is built from: nothing for what is computed. -/
def stampedGiven : Value :=
  .container [("r", .container [("value", .container [("a", .int 258)])]), ("x", .list [.int 9])]

private theorem framed_stamped : stamped.Framed true .this [] := by
  have octet : Patchable 1 (unsigned 1 .big) := .integer (by decide) false .big
  have word : Patchable 2 (unsigned 2 .big) := .integer (by decide) false .big
  simp only [stamped, Framed]
  refine ⟨by decide, ?_⟩
  simp only [FramedFields, Framed, FramedItems]
  refine ⟨⟨⟨_, octet⟩, Or.inl rfl⟩, by decide +kernel,
    ⟨by decide, ?_, by decide +kernel, trivial⟩, by decide +kernel,
    ⟨⟨_, octet⟩, ?_⟩, by decide +kernel,
    ⟨⟨⟨_, octet⟩, trivial, by decide⟩, ⟨?_, trivial⟩, trivial⟩, by decide +kernel, trivial⟩
  · exact framed_of_patchable word ..
  · exact sighted_walk rfl rfl rfl (by simp; decide)
      (by simp [Reaches, Defers])
  · exact framed_of_patchable octet ..

private theorem accepts_stamped : stamped.Accepts stampedGiven := by
  simp only [stamped, Accepts]
  refine ⟨rfl, fun given same => ?_⟩
  cases same
  refine ⟨by decide, by decide, ?_⟩
  simp only [FieldsAccept, Accepts]
  refine ⟨trivial, ?_, trivial, ?_, trivial⟩
  · refine ⟨rfl, fun given same => ?_⟩
    cases same
    refine ⟨fun _ => ⟨rfl, fun given same => ?_⟩, fun absent => by cases absent⟩
    cases same
    exact ⟨by decide, by decide, trivial, trivial⟩
  · intro i at_i
    cases at_i
    simp only [ItemAccepts, Accepts]
    refine ⟨rfl, fun items same => ?_⟩
    cases same
    exact ⟨trivial, trivial⟩

private theorem timely_stamped : stamped.Timely [] [] := by
  simp only [stamped, Timely, FieldsTimely, ItemsTimely]
  refine ⟨known_of_sighted ?_, fun name _ own => ?_, ⟨trivial, fun _ plain => plain.elim, trivial⟩,
    fun _ plain => plain.elim, trivial, fun name _ own => ?_, ⟨trivial, ⟨?_, trivial⟩, trivial⟩,
    fun _ plain => plain.elim, trivial⟩
  · exact sighted_walk rfl rfl rfl (by simp; decide) (by simp [Reaches, Defers])
  · cases own
    exact notable (by simp) (by simp)
  · cases own
    exact notable (by simp) (by simp)
  · simp only [unsigned, Timely]

theorem reparsed_of_buildBytes_stamped :
    stamped.Framed true .this [] ∧ stamped.Accepts stampedGiven ∧ stamped.Timely [] [] ∧
      ∃ w s, stamped.buildBytes (.ofDefinitions []) stampedGiven [] .empty = .ok w s ∧
        w.InRange ∧ s.stream.data = [2, 1, 2, 3, 7, 9] ∧ w.isFilled = true ∧
        ∃ p s', stamped.parseBytes (.ofDefinitions []) [] (s.stream.data ++ [255]) .empty =
          .ok p s' ∧ s'.stream.pos = 6 ∧ w.same p = true := by
  have run : Run.yields (stamped.buildBytes (.ofDefinitions []) stampedGiven [] .empty)
      (fun w s => decide w.InRange && decide (s.stream.data = [2, 1, 2, 3, 7, 9])) = true := by
    decide +kernel
  obtain ⟨w, s, built, checked⟩ := Run.ok_of_yields run
  rw [Bool.and_eq_true, decide_eq_true_iff, decide_eq_true_iff] at checked
  obtain ⟨small, data⟩ := checked
  obtain ⟨filled, parses⟩ := (reparsed_of_buildBytes framed_stamped accepts_stamped built small).2
    timely_stamped
  obtain ⟨p, s', parsed, pos, same⟩ := parses [] .empty [255]
  refine ⟨framed_stamped, accepts_stamped, timely_stamped, w, s, built, small, data, filled, p, s',
    parsed, ?_, same⟩
  rw [pos, data]
  rfl

/-- A checksum over a field that comes later. -/
def advanceSum : Format :=
  .struct [.named "sum" (.checksum (.unsigned 1 .big) Checksums.sum (.field "x")),
    .named "x" (.bytes (.const (.int 2)))] false

/-- It is built, since the field is given, and refused when it is parsed, where nothing is known of
the field yet. -/
theorem advanceSum_refused :
    Run.left? (advanceSum.buildBytes (.ofDefinitions []) (.container [("x", .bytes [1, 2])]) []
      .empty) = some ([3, 1, 2], 3) ∧
    Run.left? (advanceSum.parseBytes (.ofDefinitions []) [] [3, 1, 2] .empty) = none := by
  refine ⟨by decide +kernel, by decide +kernel⟩

end Format

end BinaryFormat
