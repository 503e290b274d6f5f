import BinaryFormat.Proofs.FrameDiscipline
import BinaryFormat.Proofs.Locality

/-!
# Embedded structures

The fields of an embedded structure enter the frame of the structure around it.
They may not take the place of an entry that is there already, so a structure
in which an inlined field bears the name of a field in front of it is never
parsed.  A field of the structure itself is not held to that: it replaces an
inlined one of its name that stands in front of it.
-/

namespace BinaryFormat

namespace Record

variable {α : Type} {fields : Record α} {name key : String} {v : α}

private theorem erase_insert_of_ne (other : name ≠ key) (v : α) : ∀ fields : Record α,
    erase (insert fields name v) key = insert (erase fields key) name v
  | [] => by
      show erase [(name, v)] key = [(name, v)]
      rw [erase, if_neg other]
      rfl
  | (own, old) :: rest => by
      by_cases same : own = name
      · subst same
        rw [insert, if_pos rfl, erase, if_neg other, erase, if_neg other, insert, if_pos rfl]
      · by_cases erased : own = key
        · rw [insert, if_neg same, erase, if_pos erased, erase, if_pos erased]
        · rw [insert, if_neg same, erase, if_neg erased, erase, if_neg erased, insert,
            if_neg same, erase_insert_of_ne other v rest]

private theorem erase_insert_congr {others : Record α} (same : erase fields key = erase others key)
    (name : String) (v : α) :
    erase (insert fields name v) key = erase (insert others name v) key := by
  by_cases own : name = key
  · subst own
    rw [erase_insert_self, erase_insert_self, same]
  · rw [erase_insert_of_ne own, erase_insert_of_ne own, same]

private theorem erase_extend_congr (entries : List (String × α)) : ∀ {fields others : Record α},
    erase fields key = erase others key →
      erase (extend fields entries) key = erase (extend others entries) key := by
  induction entries with
  | nil => exact id
  | cons entry rest ih => exact fun same => ih (erase_insert_congr same entry.1 entry.2)

/-- What is missing after entries were noted was missing before, and is none of them. -/
private theorem get?_extend_eq_none : ∀ {entries : List (String × α)} {fields : Record α},
    get? (extend fields entries) name = none →
      get? fields name = none ∧ name ∉ entries.map Prod.fst
  | [], _, missing => ⟨missing, List.not_mem_nil⟩
  | (own, v) :: rest, fields, missing => by
      have later : get? (extend (insert fields own v) rest) name = none := missing
      obtain ⟨absent, apart⟩ := get?_extend_eq_none later
      have other : own ≠ name := by
        rintro rfl
        rw [get?_insert_self] at absent
        cases absent
      rw [get?_insert_of_ne other] at absent
      exact ⟨absent, by simpa [other.symm] using apart⟩

private theorem get?_extend_of_mem : ∀ {entries : List (String × α)} {fields : Record α},
    (entries.map Prod.fst).Nodup → (name, v) ∈ entries → get? (extend fields entries) name = some v
  | (own, w) :: rest, fields, distinct, mem => by
      obtain ⟨apart, distinct⟩ := List.nodup_cons.mp distinct
      rcases List.mem_cons.mp mem with same | later
      · cases same
        have others : ∀ entry ∈ rest, entry.1 ≠ name := by
          rintro entry later rfl
          exact apart (List.mem_map.mpr ⟨entry, later, rfl⟩)
        have kept : get? (extend (insert fields name v) rest) name =
            get? (insert fields name v) name := get?_extend_of_not_mem others
        exact kept.trans (get?_insert_self fields name v)
      · have found : get? (extend (insert fields own w) rest) name = some v :=
          get?_extend_of_mem distinct later
        exact found

end Record

/-- A field that enters the frame of a structure, directly or inlined. -/
structure Entrant where
  name : String
  inlined : Bool
  deriving DecidableEq, Repr

namespace Format

/-! ## Fields that enter a frame -/

mutual

/-- A structure that is taken over, whatever names and documentation are around it. -/
def InlinesFields : Format → Prop
  | named _ of | documented _ of | embedded of => InlinesFields of
  | struct fields _ => NamedOrEmbedded fields
  | _ => False

/-- Every field has a name or is an embedded structure of such fields. -/
def NamedOrEmbedded : List Format → Prop
  | [] => True
  | f :: rest => (if f.isEmbedded then InlinesFields f else f.name?.isSome) ∧ NamedOrEmbedded rest

end

mutual

/-- The fields that an embedded structure brings in. -/
def inlinedEntrants : Format → List Entrant
  | named _ of | documented _ of | embedded of => inlinedEntrants of
  | struct fields _ => entrants true fields
  | _ => []

/-- The fields that enter the frame of a structure, in order. -/
def entrants (inlined : Bool) : List Format → List Entrant
  | [] => []
  | f :: rest =>
    (if f.isEmbedded then inlinedEntrants f else f.name?.toList.map (⟨·, inlined⟩)) ++
      entrants inlined rest

end

/-- Parses a field into the innermost frame and lists its value, if it has a name. -/
def gatherField (e : Engine) (defs : Definitions) (overwrite inlined : Bool) (path : Path)
    (f : Format) : Run (List (String × Value)) :=
  match f.name? with
  | some name => do
    let v ← Part.parse ⟨f, f.codec e defs⟩ (path.member name)
    if inlined then Run.insertInline name v overwrite (path.member name)
    else Run.insert name v
    return [(name, v)]
  | none => do
    let _ ← Part.parse ⟨f, f.codec e defs⟩ path
    return []

mutual

/-- Parses an embedded structure into the innermost frame and lists what its fields were
parsed to. -/
def gatherInlined (e : Engine) (defs : Definitions) (overwrite : Bool) (path : Path) :
    Format → Run (List (String × Value))
  | named _ of => gatherInlined e defs overwrite path of
  | documented _ of => gatherInlined e defs overwrite path of
  | embedded of => gatherInlined e defs overwrite path of
  | struct fields _ => gatherEntrants e defs overwrite true path fields
  | f => do
    (f.codec e defs).parseInline path overwrite
    return []

/-- Parses fields into the innermost frame and lists what they were parsed to, direct and
inlined ones in the order in which they are parsed. -/
def gatherEntrants (e : Engine) (defs : Definitions) (overwrite inlined : Bool) (path : Path) :
    List Format → Run (List (String × Value))
  | [] => return []
  | f :: rest => do
    let own ← (if f.isEmbedded then gatherInlined e defs overwrite path f
      else gatherField e defs overwrite inlined path f)
    return own ++ (← gatherEntrants e defs overwrite inlined path rest)

end

section Gathering

variable (e : Engine) (defs : Definitions) (overwrite : Bool) (path : Path)

mutual

/-- Listing the values changes nothing about how fields are parsed. -/
theorem parseInline_eq_gatherInlined : ∀ f : Format,
    (f.codec e defs).parseInline path overwrite =
      gatherInlined e defs overwrite path f >>= fun _ => pure () := by
  intro f
  cases f with
  | named name of => exact parseInline_eq_gatherInlined of
  | documented docs of => exact parseInline_eq_gatherInlined of
  | embedded of => exact parseInline_eq_gatherInlined of
  | struct fields own => exact parseFields_eq_gatherEntrants true fields
  | _ => simp [gatherInlined]

private theorem parseFields_eq_gatherEntrants (inlined : Bool) : ∀ fs : List Format,
    Codec.parseFields overwrite inlined path (parts e defs fs) =
      gatherEntrants e defs overwrite inlined path fs >>= fun _ => pure () := by
  intro fs
  cases fs with
  | nil => rfl
  | cons f rest =>
      have here := parseInline_eq_gatherInlined f
      have later := parseFields_eq_gatherEntrants inlined rest
      simp only [parts, Codec.parseFields, gatherEntrants, later]
      cases inline : f.isEmbedded with
      | true => simp [here]
      | false =>
          have named : Part.name? ⟨f, f.codec e defs⟩ = f.name? := rfl
          rw [named, gatherField]
          cases f.name? <;> cases inlined <;> simp

end

end Gathering

/-! ## What becomes of them -/

/-- Fields were parsed one after the other into a frame. -/
structure Collected (fields : List Entrant) (before : Record Value)
    (parsed : List (String × Value)) (after : Record Value) : Prop where
  names : parsed.map Prod.fst = fields.map Entrant.name
  /-- The frame has gained what was parsed; only the index of a repeater is not kept. -/
  frame : Record.erase after "_index" = Record.erase (Record.extend before parsed) "_index"
  fresh : ∀ a ∈ fields, a.inlined = true → a.name ≠ "_index" → Record.get? before a.name = none
  apart : fields.Pairwise fun a b => b.inlined = true → b.name ≠ "_index" → a.name ≠ b.name

namespace Collected

variable {fields more : List Entrant} {before middle after : Record Value}
  {parsed later : List (String × Value)}

private theorem nil (same : Record.erase after "_index" = Record.erase before "_index") :
    Collected [] before [] after :=
  ⟨rfl, same, (fun _ mem => nomatch mem), .nil⟩

private theorem get?_eq (h : Collected fields before parsed after) {name : String}
    (plain : name ≠ "_index") :
    Record.get? after name = Record.get? (Record.extend before parsed) name := by
  rw [← Record.get?_erase_of_ne plain.symm after, h.frame, Record.get?_erase_of_ne plain.symm]

private theorem append (h : Collected fields before parsed middle)
    (h' : Collected more middle later after) :
    Collected (fields ++ more) before (parsed ++ later) after where
  names := by rw [List.map_append, List.map_append, h.names, h'.names]
  frame := by
    rw [h'.frame, Record.erase_extend_congr later h.frame, ← Record.extend_append]
  fresh a mem inlined plain := by
    rcases List.mem_append.mp mem with first | second
    · exact h.fresh a first inlined plain
    · have missing := h'.fresh a second inlined plain
      rw [h.get?_eq plain] at missing
      exact (Record.get?_extend_eq_none missing).1
  apart := by
    refine List.pairwise_append.mpr
      ⟨h.apart, h'.apart, fun a first b second inlined plain same => ?_⟩
    have missing := h'.fresh b second inlined plain
    rw [h.get?_eq plain] at missing
    have known : b.name ∈ parsed.map Prod.fst := by
      rw [h.names, ← same]
      exact List.mem_map_of_mem first
    exact (Record.get?_extend_eq_none missing).2 known

private theorem noted (same : Record.erase middle "_index" = Record.erase before "_index")
    {a : Entrant}
    (fresh : a.inlined = true → Record.get? middle a.name = none) (v : Value) :
    Collected [a] before [(a.name, v)] (Record.insert middle a.name v) where
  names := rfl
  frame := Record.erase_insert_congr same a.name v
  fresh b mem inlined plain := by
    cases List.mem_singleton.mp mem
    rw [← Record.get?_erase_of_ne plain.symm, ← same, Record.get?_erase_of_ne plain.symm]
    exact fresh inlined
  apart := List.pairwise_singleton _ _

end Collected

private theorem insertInline_eq_ok_iff {name : String} {v : Value} {path : Path} {s s' : State} :
    Run.insertInline name v false path s = .ok () s' ↔
      Record.get? s.context.innermost name = none ∧
        s' = { s with context := s.context.insert name v } := by
  cases found : Record.get? s.context.innermost name with
  | none =>
      simp [Run.insertInline, bind, EStateM.bind, Run.context, Record.contains, found, Run.insert,
        Run.modifyContext, eq_comm]
  | some w =>
      simp [Run.insertInline, bind, EStateM.bind, Run.context, Record.contains, found, Run.fail]

section Run

variable {e : Engine} {defs : Definitions} {path : Path}

/-- Parsing leaves the entries of the frame, except for the index of a repeater. -/
private theorem erase_of_parse (he : e.Steady) {f : Format} {v : Value} {s s' : State}
    (ran : Part.parse ⟨f, f.codec e defs⟩ path s = .ok v s') :
    Record.erase s'.context.innermost "_index" = Record.erase s.context.innermost "_index" := by
  have steady := steady_codec he defs .unclaimed f (Traits.unclaimed_within _)
  have ran := Run.tagged_eq_ok_iff.mp ran
  have left := (steady.sameOuter_parse path s).2
  rwa [Run.after, ran] at left

mutual

theorem collected_of_gatherInlined (he : e.Steady) {f : Format} : f.InlinesFields → ∀ {parsed s s'},
    gatherInlined e defs false path f s = .ok parsed s' →
      Collected (inlinedEntrants f) s.context.innermost parsed s'.context.innermost := by
  intro h parsed s s' ran
  cases f with
  | named name of => exact collected_of_gatherInlined he (f := of) h ran
  | documented docs of => exact collected_of_gatherInlined he (f := of) h ran
  | embedded of => exact collected_of_gatherInlined he (f := of) h ran
  | struct fields own =>
      exact collected_of_gatherEntrants he (show NamedOrEmbedded fields from h) ran
  | _ => exact h.elim

private theorem collected_of_gatherEntrants (he : e.Steady) {fs : List Format} :
    NamedOrEmbedded fs →
    ∀ {inlined parsed s s'}, gatherEntrants e defs false inlined path fs s = .ok parsed s' →
      Collected (entrants inlined fs) s.context.innermost parsed s'.context.innermost := by
  intro h inlined parsed s s' ran
  cases fs with
  | nil =>
      cases ran
      exact .nil rfl
  | cons f rest =>
      rw [gatherEntrants] at ran
      obtain ⟨own, s₁, here, ran⟩ := Run.bind_eq_ok_iff.mp ran
      obtain ⟨others, s₂, later, ran⟩ := Run.bind_eq_ok_iff.mp ran
      cases ran
      refine Collected.append ?_ (collected_of_gatherEntrants he h.2 later)
      have fits := h.1
      cases inline : f.isEmbedded with
      | true =>
          rw [inline, if_pos rfl] at here fits
          exact collected_of_gatherInlined he fits here
      | false =>
          rw [inline, if_neg Bool.false_ne_true] at here fits
          obtain ⟨name, named⟩ := Option.isSome_iff_exists.mp fits
          rw [gatherField, named] at here
          rw [named]
          obtain ⟨v, s₃, parsed, here⟩ := Run.bind_eq_ok_iff.mp here
          have same := erase_of_parse he parsed
          cases inlined with
          | true =>
              obtain ⟨_, s₄, inserted, here⟩ := Run.bind_eq_ok_iff.mp here
              obtain ⟨missing, rfl⟩ := insertInline_eq_ok_iff.mp inserted
              cases here
              exact .noted same (a := ⟨name, true⟩) (fun _ => missing) v
          | false =>
              cases here
              exact .noted same (a := ⟨name, false⟩) (fun inlined => nomatch inlined) v

end

end Run

/-- Two fields of one name of which one is inlined. -/
def Clash (fields : List Entrant) : Prop :=
  ¬ fields.Pairwise fun a b => a.inlined = true ∨ b.inlined = true → a.name ≠ b.name

/-- A structure that may not overwrite is never parsed if an inlined field bears the name of another
field.  If the fields of its own have distinct names, whatever it is parsed to has for every
field, direct or inlined, the value that this field was parsed to.  No field may bear the name of
the index of repeaters, and no direct field that of an inlined one in front of it. -/
theorem embedded_fields_kept (defs : Definitions) (n : Nat) {fs : List Format}
    (fields : NamedOrEmbedded fs) (plain : ∀ a ∈ entrants false fs, a.name ≠ "_index")
    (ordered : (entrants false fs).Pairwise fun a b =>
      a.inlined = true → b.inlined = false → a.name ≠ b.name) (path : Path) (s : State) :
    (Clash (entrants false fs) → ∃ failure s',
      ((struct fs false).codec (.level defs n) defs).parse path s = .error failure s') ∧
    ∀ v s', ((struct fs false).codec (.level defs n) defs).parse path s = .ok v s' →
      ((entrants false fs).Pairwise fun a b =>
        a.inlined = false → b.inlined = false → a.name ≠ b.name) →
      ∃ parsed inner, gatherEntrants (.level defs n) defs false false path fs
          { s with context := s.context.push [] } = .ok parsed inner ∧
        parsed.map Prod.fst = (entrants false fs).map Entrant.name ∧
        v = .container inner.context.innermost ∧
        ∀ entry ∈ parsed, Record.get? inner.context.innermost entry.1 = some entry.2 := by
  have gathered {v : Value} {s' : State}
      (ran : ((struct fs false).codec (.level defs n) defs).parse path s = .ok v s') :
      ∃ parsed inner, gatherEntrants (.level defs n) defs false false path fs
          { s with context := s.context.push [] } = .ok parsed inner ∧
        v = .container inner.context.innermost ∧
        Collected (entrants false fs) [] parsed inner.context.innermost := by
    obtain ⟨⟨_, frame⟩, s₁, framed, last⟩ := Run.bind_eq_ok_iff.mp ran
    obtain ⟨inner, parsed, own, -⟩ := Run.ok_of_inFrame framed
    cases last
    rw [parseFields_eq_gatherEntrants] at parsed
    obtain ⟨values, s₂, here, last⟩ := Run.bind_eq_ok_iff.mp parsed
    cases last
    exact ⟨values, inner, here, by rw [← own],
      collected_of_gatherEntrants (Engine.steady_level defs n) fields here⟩
  -- among fields that were parsed, an inlined one has a name of its own
  have apart {parsed : List (String × Value)} {frame : Record Value}
      (collected : Collected (entrants false fs) [] parsed frame) :
      (entrants false fs).Pairwise fun a b =>
        a.inlined = true ∨ b.inlined = true → a.name ≠ b.name := by
    refine (ordered.and collected.apart).imp_of_mem fun {a b} _ mem both inlined => ?_
    cases later : b.inlined with
    | true => exact both.2 later (plain b mem)
    | false => exact both.1 (inlined.resolve_right (by simp [later])) later
  constructor
  · intro clash
    cases ran : ((struct fs false).codec (.level defs n) defs).parse path s with
    | error failure s' => exact ⟨failure, s', rfl⟩
    | ok v s' =>
        obtain ⟨parsed, inner, -, -, collected⟩ := gathered ran
        exact absurd (apart collected) clash
  · intro v s' ran direct
    obtain ⟨parsed, inner, here, shown, collected⟩ := gathered ran
    refine ⟨parsed, inner, here, collected.names, shown, fun entry mem => ?_⟩
    have named : entry.1 ∈ (entrants false fs).map Entrant.name := by
      rw [← collected.names]
      exact List.mem_map_of_mem mem
    obtain ⟨a, known, own⟩ := List.mem_map.mp named
    have distinct : (parsed.map Prod.fst).Nodup := by
      rw [collected.names]
      refine List.pairwise_map.mpr (((apart collected).and direct).imp fun {a b} both => ?_)
      cases first : a.inlined <;> cases second : b.inlined <;> simp_all
    rw [collected.get?_eq (own ▸ plain a known)]
    exact Record.get?_extend_of_mem distinct mem

/-- A number, and two more that are inlined. -/
def inlinedPair (name : String) : List Format :=
  [.named "a" (.unsigned 1 .big),
    .embedded (.struct [.named name (.unsigned 1 .big), .named "c" (.unsigned 1 .big)] false)]

theorem entrants_inlinedPair (name : String) :
    entrants false (inlinedPair name) = [⟨"a", false⟩, ⟨name, true⟩, ⟨"c", true⟩] := rfl

theorem embedded_fields_kept_pair :
    (∃ failure s', ((struct (inlinedPair "a") false).codec (.level [] 1) []).parse .this
      ⟨.memory [1, 2, 3], .ofParams [], .empty⟩ = .error failure s') ∧
    ∃ frame s', ((struct (inlinedPair "b") false).codec (.level [] 1) []).parse .this
        ⟨.memory [1, 2, 3], .ofParams [], .empty⟩ = .ok (.container frame) s' ∧
      Record.get? frame "a" = some (.int 1) ∧ Record.get? frame "b" = some (.int 2) ∧
      Record.get? frame "c" = some (.int 3) := by
  have fields (name : String) : NamedOrEmbedded (inlinedPair name) :=
    ⟨rfl, ⟨rfl, rfl, trivial⟩, trivial⟩
  have kept (name : String) (other : name ≠ "_index") := embedded_fields_kept [] 1 (fields name)
    (by simp [entrants_inlinedPair, other]) (by simp [entrants_inlinedPair]) .this
    ⟨.memory [1, 2, 3], .ofParams [], .empty⟩
  refine ⟨(kept "a" (by decide)).1 (by simp [Clash, entrants_inlinedPair]), ?_⟩
  obtain ⟨v, s', ran⟩ : ∃ v s', ((struct (inlinedPair "b") false).codec (.level [] 1) []).parse
      .this ⟨.memory [1, 2, 3], .ofParams [], .empty⟩ = .ok v s' := ⟨_, _, rfl⟩
  obtain ⟨parsed, inner, here, -, rfl, entries⟩ := (kept "b" (by decide)).2 v s' ran
    (by simp [entrants_inlinedPair])
  obtain ⟨inner', listed⟩ : ∃ inner', gatherEntrants (.level [] 1) [] false false .this
      (inlinedPair "b") ⟨.memory [1, 2, 3], (Context.ofParams []).push [], .empty⟩ =
        .ok [("a", .int 1), ("b", .int 2), ("c", .int 3)] inner' := ⟨_, rfl⟩
  cases here.symm.trans listed
  exact ⟨_, s', ran, entries ("a", .int 1) (by simp), entries ("b", .int 2) (by simp),
    entries ("c", .int 3) (by simp)⟩

/-- A number that is inlined in front of one of the same name. -/
def overtaken : List Format :=
  [.embedded (.struct [.named "a" (.unsigned 1 .big)] false), .named "a" (.unsigned 1 .big)]

/-- The second number replaces the first one, of which nothing is left. -/
theorem overtaken_replaced :
    NamedOrEmbedded overtaken ∧ Clash (entrants false overtaken) ∧
      ∃ s', ((struct overtaken false).codec (.level [] 1) []).parse .this
        ⟨.memory [1, 2], .ofParams [], .empty⟩ = .ok (.container [("a", .int 2)]) s' := by
  have fields : entrants false overtaken = [⟨"a", true⟩, ⟨"a", false⟩] := rfl
  exact ⟨⟨⟨rfl, trivial⟩, rfl, trivial⟩, by simp [Clash, fields], _, rfl⟩

end Format

end BinaryFormat
