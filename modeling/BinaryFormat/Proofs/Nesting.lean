import BinaryFormat.Proofs.Legible

/-!
# On the way into a format

While a format is parsed, control comes to the formats inside of it: through
envelopes, branches and repeaters to a structure, and through the fields before
one to that field.  What has been parsed by then is in the frames that have been
entered.
-/

namespace BinaryFormat

/-! ## Names that enter a frame -/

namespace Format

mutual

/-- The names under which an embedded component notes its members. -/
def inlined : Format → List String
  | named _ of | documented _ of | embedded of => inlined of
  | struct fields _ => declared fields
  | union _ alternatives => fieldNames alternatives
  | _ => []

/-- The names under which fields are noted in the frame of their structure. -/
def declared : List Format → List String
  | [] => []
  | f :: rest => (if f.isEmbedded then inlined f else f.name?.toList) ++ declared rest

end

end Format

namespace Run

variable {α β : Type} {name : String} {v : Option Value}

/-- The entry of a name in the innermost frame. -/
def Entry (name : String) (v : Option Value) (ctx : Context) : Prop :=
  Record.get? ctx.innermost name = v

private theorem keeps_entry_insert {other : String} (apart : other ≠ name) (w : Value) :
    (insert other w).Keeps (Entry name v) :=
  keeps_modify fun ctx h => (Record.get?_insert_of_ne apart ctx.innermost w).trans h

private theorem keeps_entry_insertInline {other : String} (apart : other ≠ name) (w : Value)
    (overwrite : Bool) (path : Path) : (insertInline other w overwrite path).Keeps (Entry name v) :=
  .bind keeps_context fun _ => keeps_guard (keeps_entry_insert apart w)

end Run

namespace Codec

open Run (Entry)

variable {t : Traits} {p : Part} {name : String} {v : Option Value} {ps : List Part}

/-- Parsing leaves every public entry. -/
private theorem keeps_entry_parse (h : p.codec.Steady t) (shown : Record.isPrivate name = false)
    (path : Path) : (p.parse path).Keeps (Entry name v) :=
  (Run.keeps_of_start (h.parse path) Context.Calm.refl fun _ _ here calm =>
    (calm.quiet.shown name shown).trans here).tagged

private theorem keeps_entry_parseOverlaid (each : ∀ p ∈ ps, p.codec.Steady t)
    (shown : Record.isPrivate name = false) (absent : name ∉ Part.names ps)
    (policy : Option Bool) (key : Option Nat) (start : Nat) (path : Path) : ∀ i,
    (parseOverlaid policy key start path i ps).Keeps (Entry name v) := by
  induction ps with
  | nil => exact fun _ => Run.keeps_pure
  | cons p rest ih =>
      intro i
      have others : name ∉ Part.names rest := by
        intro mem
        obtain ⟨q, at_q, named⟩ := List.mem_filterMap.mp mem
        exact absent (List.mem_filterMap.mpr ⟨q, List.mem_cons_of_mem p at_q, named⟩)
      have later := ih (fun q mem => each q (List.mem_cons_of_mem p mem)) others (i + 1)
      have parsed := keeps_entry_parse (v := v) (each p List.mem_cons_self) shown
      refine .bind Run.keeps_goTo fun _ => .bind (parsed _) fun w =>
        .bind Run.keeps_tell fun _ => ?_
      cases named : p.name? with
      | none => exact .bind later fun _ => Run.keeps_pure
      | some other =>
          have apart : other ≠ name := by
            rintro rfl
            exact absent (List.mem_filterMap.mpr ⟨p, List.mem_cons_self, named⟩)
          cases policy with
          | none =>
              exact .bind (Run.keeps_entry_insert apart w) fun _ => .bind later fun _ =>
                Run.keeps_pure
          | some overwrite =>
              exact .bind (Run.keeps_entry_insertInline apart w _ _) fun _ => .bind later fun _ =>
                Run.keeps_pure

private theorem keeps_entry_parseUnion (each : ∀ p ∈ ps, p.codec.Steady t)
    (shown : Record.isPrivate name = false) (absent : name ∉ Part.names ps)
    (key : Option Selector) (path : Path) (policy : Option Bool) :
    (parseUnion key ps path policy).Keeps (Entry name v) := by
  have chosen : Run.Keeps (Entry name v) (unionKey (Run.fail · path) key ps) := by
    unfold unionKey
    split
    · exact Run.keeps_pure
    · split
      · exact Run.keeps_pure
      · exact Run.keeps_fail
  refine .bind chosen fun i => .bind Run.keeps_tell fun start => ?_
  refine .bind (keeps_entry_parseOverlaid each shown absent policy i start path 0) fun reached => ?_
  cases reached with
  | some reached => exact Run.keeps_goTo
  | none => exact .bind Run.keeps_context fun _ => .bind Run.keeps_lookup fun _ => Run.keeps_goTo

end Codec

namespace Format

open Run (Entry)

variable {e : Engine} {name : String} {v : Option Value}

theorem steady_unclaimed (he : e.Steady) (defs : Definitions) (fs : List Format) :
    ∀ p ∈ parts e defs fs, p.codec.Steady .unclaimed :=
  steady_parts he defs .unclaimed fs (Traits.unclaimed_within _)

mutual

theorem keeps_entry_inline (he : e.Steady) (defs : Definitions)
    (shown : Record.isPrivate name = false) : ∀ (f : Format), name ∉ inlined f →
      ∀ path overwrite, ((f.codec e defs).parseInline path overwrite).Keeps (Entry name v) := by
  intro f absent path overwrite
  cases f with
  | named _ of => exact keeps_entry_inline he defs shown of absent path overwrite
  | documented _ of => exact keeps_entry_inline he defs shown of absent path overwrite
  | embedded of => exact keeps_entry_inline he defs shown of absent path overwrite
  | struct fields _ => exact keeps_entry_fields he defs shown fields absent overwrite true path
  | union key alternatives =>
      rw [inlined, ← names_parts e defs] at absent
      exact Codec.keeps_entry_parseUnion (steady_unclaimed he defs alternatives) shown absent key
        path _
  | _ => exact Run.keeps_fail

private theorem keeps_entry_fields (he : e.Steady) (defs : Definitions)
    (shown : Record.isPrivate name = false) : ∀ (fs : List Format), name ∉ declared fs →
      ∀ overwrite within path,
        (Codec.parseFields overwrite within path (parts e defs fs)).Keeps (Entry name v) := by
  intro fs absent overwrite within path
  cases fs with
  | nil => exact Run.keeps_pure
  | cons f rest =>
      rw [declared, List.mem_append, not_or] at absent
      have later := keeps_entry_fields he defs shown rest absent.2 overwrite within path
      have parsed := Codec.keeps_entry_parse (p := ⟨f, f.codec e defs⟩) (v := v)
        (steady_unclaimed he defs (f :: rest) _ List.mem_cons_self) shown
      unfold parts Codec.parseFields
      by_cases inline : f.isEmbedded = true
      · simp only [inline, if_true] at absent ⊢
        exact .bind (keeps_entry_inline he defs shown f absent.1 path overwrite) fun _ => later
      · simp only [inline, if_false, Bool.false_eq_true] at absent ⊢
        have named : Part.name? ⟨f, f.codec e defs⟩ = f.name? := rfl
        rw [named]
        cases hn : f.name? with
        | none => exact .bind (parsed path) fun _ => later
        | some other =>
            have apart : other ≠ name := by
              rintro rfl
              exact absent.1 (by rw [hn]; exact List.mem_cons_self)
            refine .bind (parsed _) fun w => Run.keeps_ite ?_ ?_
            · exact .bind (Run.keeps_entry_insertInline apart w _ _) fun _ => later
            · exact .bind (Run.keeps_entry_insert apart w) fun _ => later

end

end Format

/-! ## The fields before one -/

namespace Codec

/-- Parses fields and lists what they were parsed to, by name. -/
def gatherFields (overwrite : Bool) (path : Path) : List Part → Run (Record Value)
  | [] => return []
  | field :: rest => do
    if field.format.isEmbedded then
      field.codec.parseInline path overwrite
      gatherFields overwrite path rest
    else
      match field.name? with
      | some name =>
        let v ← field.parse (path.member name)
        Run.insert name v
        return (name, v) :: (← gatherFields overwrite path rest)
      | none =>
        let _ ← field.parse path
        gatherFields overwrite path rest

private theorem parseFields_eq_gatherFields (overwrite : Bool) (path : Path) : ∀ fields : List Part,
    parseFields overwrite false path fields =
      gatherFields overwrite path fields >>= fun _ => pure ()
  | [] => rfl
  | field :: rest => by
      rw [parseFields, gatherFields, parseFields_eq_gatherFields overwrite path rest]
      split
      · rw [bind_assoc]
      · cases field.name? <;> simp

theorem parseFields_of_gatherFields {overwrite : Bool} {path : Path} {fields : List Part}
    {parsed : Record Value} {s s' : State}
    (done : gatherFields overwrite path fields s = .ok parsed s') :
    parseFields overwrite false path fields s = .ok () s' := by
  rw [parseFields_eq_gatherFields]
  exact Run.bind_of_ok done _

private theorem gatherFields_cons_eq_ok {overwrite : Bool} {path : Path} {field : Part}
    {rest : List Part} {parsed : Record Value} {s s' : State}
    (done : gatherFields overwrite path (field :: rest) s = .ok parsed s') :
    (field.format.isEmbedded = true ∧ ∃ s₁, field.codec.parseInline path overwrite s = .ok () s₁ ∧
      gatherFields overwrite path rest s₁ = .ok parsed s') ∨
    (field.format.isEmbedded = false ∧ field.name? = none ∧ ∃ v s₁,
      field.parse path s = .ok v s₁ ∧ gatherFields overwrite path rest s₁ = .ok parsed s') ∨
    (field.format.isEmbedded = false ∧ ∃ name v s₁ others, field.name? = some name ∧
      field.parse (path.member name) s = .ok v s₁ ∧ parsed = (name, v) :: others ∧
      gatherFields overwrite path rest { s₁ with context := s₁.context.insert name v } =
        .ok others s') := by
  rw [gatherFields] at done
  by_cases inline : field.format.isEmbedded = true
  · rw [if_pos inline] at done
    obtain ⟨_, s₁, here, later⟩ := Run.bind_eq_ok_iff.mp done
    exact Or.inl ⟨inline, s₁, here, later⟩
  · rw [if_neg inline] at done
    have plain : field.format.isEmbedded = false := Bool.eq_false_iff.mpr inline
    refine Or.inr ?_
    cases named : field.name? with
    | none =>
        rw [named] at done
        obtain ⟨v, s₁, here, later⟩ := Run.bind_eq_ok_iff.mp done
        exact Or.inl ⟨plain, rfl, v, s₁, here, later⟩
    | some name =>
        rw [named] at done
        obtain ⟨v, s₁, here, noted⟩ := Run.bind_eq_ok_iff.mp done
        obtain ⟨_, s₂, inserted, last⟩ := Run.bind_eq_ok_iff.mp noted
        cases inserted
        obtain ⟨others, s₃, later, last⟩ := Run.bind_eq_ok_iff.mp last
        cases last
        exact Or.inr ⟨plain, name, v, s₁, others, rfl, here, rfl, later⟩

end Codec

namespace Format

open Run (Entry)

variable {e : Engine} {defs : Definitions} {overwrite : Bool} {path : Path}

/-- The fields that have an entry of their own. -/
def ownNames (fs : List Format) : List String := fieldNames (fs.filter fun f => !f.isEmbedded)

private theorem ownNames_cons (f : Format) (rest : List Format) :
    ownNames (f :: rest) = (if f.isEmbedded then [] else f.name?.toList) ++ ownNames rest := by
  unfold ownNames fieldNames
  cases inline : f.isEmbedded <;> cases named : f.name? <;>
    simp [inline, named]

theorem keys_of_gatherFields : ∀ {fs : List Format} {parsed : Record Value} {s s' : State},
    Codec.gatherFields overwrite path (parts e defs fs) s = .ok parsed s' →
      Record.keys parsed = ownNames fs
  | [], _, _, _, done => by
      cases done
      rfl
  | f :: rest, parsed, s, s', done => by
      rw [ownNames_cons]
      rcases Codec.gatherFields_cons_eq_ok done with
        ⟨inline, s₁, -, later⟩ | ⟨plain, unnamed, v, s₁, -, later⟩ |
          ⟨plain, name, v, s₁, others, named, -, rfl, later⟩
      · have inline : f.isEmbedded = true := inline
        rw [if_pos inline, List.nil_append, keys_of_gatherFields later]
      · have plain : ¬ f.isEmbedded = true := Bool.eq_false_iff.mp plain
        have unnamed : f.name? = none := unnamed
        rw [if_neg plain, unnamed, keys_of_gatherFields later]
        rfl
      · have plain : ¬ f.isEmbedded = true := Bool.eq_false_iff.mp plain
        have named : f.name? = some name := named
        rw [if_neg plain, named]
        exact congrArg (name :: ·) (keys_of_gatherFields later)

private theorem mem_declared_of_mem_ownNames {name : String} : ∀ {fs : List Format},
    name ∈ ownNames fs → name ∈ declared fs
  | f :: rest, mem => by
      rw [ownNames_cons] at mem
      rw [declared]
      rcases List.mem_append.mp mem with here | later
      · refine List.mem_append_left _ ?_
        cases inline : f.isEmbedded
        · rwa [inline] at here
        · rw [inline] at here
          cases here
      · exact List.mem_append_right _ (mem_declared_of_mem_ownNames later)

/-- What a field was parsed to is the entry of its name, if no other field declares that. -/
theorem get?_of_gatherFields (he : e.Steady) {name : String}
    (shown : Record.isPrivate name = false) : ∀ {fs : List Format} {parsed : Record Value}
      {s s' : State} {v : Value},
      Codec.gatherFields overwrite path (parts e defs fs) s = .ok parsed s' →
      (name, v) ∈ parsed → (declared fs).count name = 1 →
        Record.get? s'.context.innermost name = some v
  | [], _, _, _, _, done, mem, _ => by
      cases done
      cases mem
  | f :: rest, parsed, s, s', v, done, mem, once => by
      -- The name is that of a later field, which has it alone.
      have step {others : Record Value} {s₁ : State} (mem : (name, v) ∈ others)
          (later : Codec.gatherFields overwrite path (parts e defs rest) s₁ = .ok others s') :
          Record.get? s'.context.innermost name = some v := by
        have known : name ∈ Record.keys others := List.mem_map.mpr ⟨(name, v), mem, rfl⟩
        rw [keys_of_gatherFields later] at known
        have positive := List.count_pos_iff.mpr (mem_declared_of_mem_ownNames known)
        rw [declared, List.count_append] at once
        exact get?_of_gatherFields he shown later mem (by omega)
      rcases Codec.gatherFields_cons_eq_ok done with
        ⟨inline, s₁, -, later⟩ | ⟨plain, unnamed, w, s₁, -, later⟩ |
          ⟨plain, other, w, s₁, others, named, -, rfl, later⟩
      · exact step mem later
      · exact step mem later
      · rcases List.mem_cons.mp mem with same | mem
        · cases same
          have plain : ¬ f.isEmbedded = true := Bool.eq_false_iff.mp plain
          have named : f.name? = some name := named
          have absent : name ∉ declared rest := by
            rw [declared, if_neg plain, named, List.count_append] at once
            have here : List.count name (some name).toList = 1 := by simp
            exact List.count_eq_zero.mp (by omega)
          have kept := keeps_entry_fields (v := some v) he defs shown rest absent overwrite false
            path
          have start : Entry name (some v) (s₁.context.insert name v) :=
            Record.get?_insert_self _ _ _
          exact (kept.of_ok start (Codec.parseFields_of_gatherFields later)).1
        · exact step mem later

end Format

/-! ## On the way to a component -/

/-- While the first format is parsed at a path from a state, control comes to the second one, at
its path and in its state, through names, arrays, branches and envelopes, none of which has a
frame of its own. -/
inductive Leads (e : Engine) (defs : Definitions) :
    Format → Path → State → Format → Path → State → Prop
  | here (f : Format) (path : Path) (s : State) : Leads e defs f path s f path s
  | named {name : String} {of g : Format} {path place : Path} {s s' : State}
      (further : Leads e defs of path s g place s') :
      Leads e defs (.named name of) path s g place s'
  | documented {docs : String} {of g : Format} {path place : Path} {s s' : State}
      (further : Leads e defs of path s g place s') :
      Leads e defs (.documented docs of) path s g place s'
  | element {count : Expr} {of g : Format} {discard : Bool} {path place : Path} {n i : Nat}
      {items : List Value} {s s₁ s₂ s' : State} (counted : e.evalSize count path s = .ok n s₁)
      (inside : i < n)
      (before : Codec.parseCounted ⟨of, of.codec e defs⟩ path i 0 s₁ = .ok items s₂)
      (further : Leads e defs of (path.element i)
        { s₂ with context := s₂.context.insert "_index" (.ofNat i) } g place s') :
      Leads e defs (.array count of discard) path s g place s'
  | branch {condition : Expr} {yes no g : Format} {path place : Path} {holds : Bool}
      {s s₁ s' : State} (decided : e.evalHolds condition path s = .ok holds s₁)
      (further : Leads e defs (if holds then yes else no) path s₁ g place s') :
      Leads e defs (.branch condition yes no) path s g place s'
  | prefixed {length of g : Format} {inclusive lenient : Bool} {path place : Path} {v : Value}
      {stored : Int} {own : Nat} {data : List UInt8} {s s₁ s₂ s₃ s' : State}
      (lengthParsed : Part.parse ⟨length, length.codec e defs⟩ path s = .ok v s₁)
      (number : v.int? = some stored)
      (overhead : Codec.overhead ⟨length, length.codec e defs⟩ inclusive path s₁ = .ok own s₂)
      (room : ¬ (stored - own < 0 ∨ Value.maxSize < stored - own))
      (payload : Run.read (stored - own).toNat path s₂ = .ok data s₃)
      (further : Leads e defs of path { s₃ with stream := .memory data } g place s') :
      Leads e defs (.prefixed length of inclusive lenient) path s g place s'
  | fixedSized {length : Expr} {of g : Format} {path place : Path} {n : Nat} {data : List UInt8}
      {s s₁ s₂ s' : State} (sized : e.evalSize length path s = .ok n s₁)
      (payload : Run.read n path s₁ = .ok data s₂)
      (further : Leads e defs of path { s₂ with stream := .memory data } g place s') :
      Leads e defs (.fixedSized length of) path s g place s'
  | padded {length : Expr} {of g : Format} {fill : Fill} {path place : Path} {n : Nat}
      {s s₁ s' : State} (sized : e.evalSize length path s = .ok n s₁)
      (further : Leads e defs of path s₁ g place s') :
      Leads e defs (.padded length of fill) path s g place s'
  | aligned {modulus : Expr} {of g : Format} {fill : Fill} {path place : Path} {n : Nat}
      {s s₁ s' : State} (multiple : Codec.evalModulus e modulus path s = .ok n s₁)
      (further : Leads e defs of path s₁ g place s') :
      Leads e defs (.aligned modulus of fill) path s g place s'

/-- What a structure has parsed when control comes to one of its fields: the fields before, and
their values by name. -/
structure Level where
  before : List Format
  parsed : Record Value

/-- While the first format is parsed, control comes to the second one inside of nested
structures, the innermost of which is the first of the levels. -/
inductive Nest (e : Engine) (defs : Definitions) :
    Format → Path → State → List Level → Format → Path → State → Prop
  | innermost {f field g : Format} {before after : List Format} {overwrite : Bool}
      {path here place : Path} {parsed : Record Value} {s s₁ s₂ s' : State}
      (outside : Leads e defs f path s (.struct (before ++ field :: after) overwrite) here s₁)
      (done : Codec.gatherFields overwrite here (Format.parts e defs before)
        { s₁ with context := s₁.context.push [] } = .ok parsed s₂)
      (plain : field.isEmbedded = false)
      (further : Leads e defs field (here.memberIf field.name?) s₂ g place s') :
      Nest e defs f path s [⟨before, parsed⟩] g place s'
  | outer {f field g : Format} {before after : List Format} {overwrite : Bool}
      {path here place : Path} {parsed : Record Value} {levels : List Level} {s s₁ s₂ s' : State}
      (outside : Leads e defs f path s (.struct (before ++ field :: after) overwrite) here s₁)
      (done : Codec.gatherFields overwrite here (Format.parts e defs before)
        { s₁ with context := s₁.context.push [] } = .ok parsed s₂)
      (plain : field.isEmbedded = false)
      (further : Nest e defs field (here.memberIf field.name?) s₂ levels g place s') :
      Nest e defs f path s (levels ++ [⟨before, parsed⟩]) g place s'

end BinaryFormat
