import BinaryFormat.Proofs.Locality.Codecs

/-!
# Formats that depend on nothing but what they read

The formats whose codecs are local: numbers, text, structures and repetitions
whose expressions read names that were noted before.
-/

namespace BinaryFormat

open Lookup (Carried)

namespace Codec

variable {near : Reach} {ctx ctx' : Context}

/-- The formats of a list all have local codecs. -/
abbrev LocalAll (near : Reach) (defs : Definitions) (fs : List Format) : Prop :=
  ∀ f ∈ fs, Local near (fun e => f.codec e defs)

/-! ## Cases by key -/

/-- An expression has one value, in this scope and in those that it carries over to, or
none. -/
private theorem evaluate_cases {x : Expr} (carries : near.Carries ctx.frames ctx'.frames)
    (reads : x.Reads near) :
    (∃ v : Value, v.Eager ∧ ∀ (e : Engine) (path : Path),
        x.evaluate e.resolver ctx.scope path = pure v ∧
          x.evaluate e.resolver ctx'.scope path = pure v) ∨
      ∀ (e : Engine) (path : Path) (store : LazyStore), ∃ failure,
        x.evaluate e.resolver ctx.scope path store = .error failure store := by
  rcases (Expr.carried_evaluate carries reads .this .this).elim .exhausted .exhausted default with
    ⟨v, eager, here, -⟩ | ⟨failure, failed⟩
  · refine Or.inl ⟨v, eager, fun e path => ?_⟩
    exact ⟨((Expr.carried_evaluate carries.self reads .this path).eq_pure here).2.2.2 e,
      ((Expr.carried_evaluate carries reads .this path).eq_pure here).2.2.2 e⟩
  · refine Or.inr fun e path store => ?_
    rcases (Expr.carried_evaluate carries.self reads path .this).elim e .exhausted store with
      ⟨v, -, -, there⟩ | failed
    · have never := (there default).symm.trans failed
      cases never
    · exact failed

private theorem carried_sizes {defs : Definitions} : ∀ {fs : List Format}, LocalAll near defs fs →
    near.Carries ctx.frames ctx'.frames → ∀ path path' : Path,
      Carried (fun sizes => ∀ f ∈ fs, ∃ n ∈ sizes, HasSize (fun e => f.codec e defs) ctx n)
        (fun e => Part.sizes ctx path (Format.parts e defs fs))
        (fun e => Part.sizes ctx' path' (Format.parts e defs fs))
  | [], _, _, _, _ => .pure fun f mem => nomatch mem
  | f :: rest, h, carries, path, path' => by
      have first := h f List.mem_cons_self
      have later := carried_sizes (fun g mem => h g (List.mem_cons_of_mem f mem)) carries path path'
      refine (first.carried_size carries path path').bind fun n here => later.bind
        fun sizes there => .pure fun g mem => ?_
      rcases List.mem_cons.mp mem with rfl | mem
      · exact ⟨n, List.mem_cons_self, here⟩
      · obtain ⟨k, listed, known⟩ := there g mem
        exact ⟨k, List.mem_cons_of_mem n listed, known⟩

private theorem eq_of_commonSize {sizes : List Nat} {n : Nat} (h : commonSize sizes = some n) :
    ∀ k ∈ sizes, k = n := by
  cases sizes with
  | nil => cases h
  | cons first rest =>
      by_cases same : (rest.all (· == first)) = true
      · rw [commonSize, if_pos same] at h
        cases h
        intro k mem
        rcases List.mem_cons.mp mem with rfl | mem
        · rfl
        · exact eq_of_beq (List.all_eq_true.mp same k mem)
      · rw [commonSize, if_neg same] at h
        cases h

/-- Among cases with keys that are not lazy, a key that is not lazy either chooses one format,
whatever the engine. -/
private theorem findCase_cases (defs : Definitions) {key : Value} (eager : key.Eager)
    (otherwise : Option Format) : ∀ {cases : List (Value × Format)},
      (∀ entry ∈ cases, entry.1.Eager) →
        (∃ f ∈ cases.map Prod.snd ++ otherwise.toList, ∀ e : Engine,
          findCase e.resolver key (Format.partIf e defs otherwise) (Format.casesOf e defs cases) =
            pure (some ⟨f, f.codec e defs⟩)) ∨
        ∀ e : Engine,
          findCase e.resolver key (Format.partIf e defs otherwise) (Format.casesOf e defs cases) =
            pure none
  | [], _ => by
      cases otherwise with
      | none => exact Or.inr fun _ => rfl
      | some f => exact Or.inl ⟨f, List.mem_singleton.mpr rfl, fun _ => rfl⟩
  | (k, f) :: rest, h => by
      have later := findCase_cases defs eager otherwise
        fun entry mem => h entry (List.mem_cons_of_mem _ mem)
      obtain ⟨answer, same⟩ := Resolver.equal_of_eager (h (k, f) List.mem_cons_self) eager
      have step (e : Engine) : findCase e.resolver key (Format.partIf e defs otherwise)
          (Format.casesOf e defs ((k, f) :: rest)) =
            if answer then pure (some ⟨f, f.codec e defs⟩)
            else findCase e.resolver key (Format.partIf e defs otherwise)
              (Format.casesOf e defs rest) := by
        rw [Format.casesOf, findCase, same]
        cases answer <;> rfl
      cases answer with
      | true => exact Or.inl ⟨f, List.mem_cons_self, step⟩
      | false =>
          rcases later with ⟨g, mem, found⟩ | missing
          · exact Or.inl ⟨g, List.mem_cons_of_mem f mem, fun e => (step e).trans (found e)⟩
          · exact Or.inr fun e => (step e).trans (missing e)

/-- The formats of all cases. -/
def alternatives (cases : List (Value × Format)) (otherwise : Option Format) : List Format :=
  cases.map Prod.snd ++ otherwise.toList

private theorem parts_alternatives (e : Engine) (defs : Definitions) (otherwise : Option Format) :
    ∀ cases : List (Value × Format),
      (Format.casesOf e defs cases).map Prod.snd ++ (Format.partIf e defs otherwise).toList =
        Format.parts e defs (alternatives cases otherwise)
  | [] => by cases otherwise <;> rfl
  | (k, f) :: rest => by
      have later := parts_alternatives e defs otherwise rest
      simp only [Format.casesOf, alternatives, List.map_cons, List.cons_append, Format.parts] at *
      rw [later]

section Switch

variable {defs : Definitions} {key : Expr} {cases : List (Value × Format)}
  {otherwise : Option Format}

/-- The codec of a switch over formats. -/
def switchOf (defs : Definitions) (key : Expr) (cases : List (Value × Format))
    (otherwise : Option Format) (e : Engine) : Codec :=
  switch e key (Format.casesOf e defs cases) (Format.partIf e defs otherwise)

/-- How a switch chooses in a scope. -/
def choice (defs : Definitions) (key : Expr) (cases : List (Value × Format))
    (otherwise : Option Format) (e : Engine) (scope : Scope) (path : Path) :
    Lookup Failure Part :=
  chooseCase e.resolver key (Format.casesOf e defs cases) (Format.partIf e defs otherwise)
    scope path

private theorem choice_cases (defs : Definitions) (otherwise : Option Format)
    (reads : key.Reads near) (eager : ∀ entry ∈ cases, entry.1.Eager)
    (carries : near.Carries ctx.frames ctx'.frames) :
    (∃ f ∈ alternatives cases otherwise, ∀ (e : Engine) (path : Path),
        choice defs key cases otherwise e ctx.scope path = pure ⟨f, f.codec e defs⟩ ∧
          choice defs key cases otherwise e ctx'.scope path = pure ⟨f, f.codec e defs⟩) ∨
      ∀ (e : Engine) (path : Path) (store : LazyStore), ∃ failure,
        choice defs key cases otherwise e ctx.scope path store = .error failure store := by
  rcases evaluate_cases carries reads with ⟨v, lazyless, value⟩ | refused
  · rcases findCase_cases defs lazyless otherwise eager with ⟨f, mem, found⟩ | missing
    · refine Or.inl ⟨f, mem, fun e path => ⟨?_, ?_⟩⟩
      · rw [choice, chooseCase, (value e path).1, pure_bind, found e, pure_bind]
      · rw [choice, chooseCase, (value e path).2, pure_bind, found e, pure_bind]
    · refine Or.inr fun e path store => ⟨(Fault.noCase (v.dump store.resolved)).atPath path, ?_⟩
      rw [choice, chooseCase, (value e path).1, pure_bind, missing e, pure_bind]
      rfl
  · refine Or.inr fun e path store => ?_
    obtain ⟨failure, failed⟩ := refused e path store
    exact ⟨failure, Run.bind_of_error failed _⟩

/-- The one size of all formats of a switch. -/
def sizeOfAll (defs : Definitions) (key : Expr) (cases : List (Value × Format))
    (otherwise : Option Format) (e : Engine) (ctx : Context) (path : Path) :
    Lookup Failure Nat := do
  match commonSize (← Part.sizes ctx path
      (Format.parts e defs (alternatives cases otherwise))) with
  | some n => return n
  | none => unsized (.switch key.text) path

/-- Where nothing is chosen, a switch has the one size that all its formats have. -/
private theorem switchOf_size_of_error {e : Engine} {path : Path}
    (h : ∀ store : LazyStore, ∃ failure,
      choice defs key cases otherwise e ctx.scope path store = .error failure store) :
    (switchOf defs key cases otherwise e).size ctx path =
      sizeOfAll defs key cases otherwise e ctx path := by
  funext store
  obtain ⟨failure, failed⟩ := h store
  unfold switchOf switch
  dsimp only
  have outcome : (choice defs key cases otherwise e ctx.scope path).outcome store =
      .ok (.error failure) store := by
    rw [Lookup.outcome, failed]
  rw [sizeOfAll, ← parts_alternatives]
  exact Run.bind_of_ok outcome _

private theorem carried_sizeOfAll (key : Expr)
    (h : LocalAll near defs (alternatives cases otherwise))
    (carries : near.Carries ctx.frames ctx'.frames) (path path' : Path) :
    Carried
      (fun n => ∀ f ∈ alternatives cases otherwise, HasSize (fun e => f.codec e defs) ctx n)
      (fun e => sizeOfAll defs key cases otherwise e ctx path)
      (fun e => sizeOfAll defs key cases otherwise e ctx' path') := by
  refine (carried_sizes h carries path path').bind fun sizes listed => ?_
  cases common : commonSize sizes with
  | none => exact .throw _ _
  | some n =>
      refine .pure fun f mem => ?_
      obtain ⟨k, known, sized⟩ := listed f mem
      rwa [eq_of_commonSize common k known] at sized

private theorem switchOf_size_of_choice {e : Engine} {path : Path} {f : Format}
    (h : choice defs key cases otherwise e ctx.scope path = pure ⟨f, f.codec e defs⟩) :
    (switchOf defs key cases otherwise e).size ctx path = (f.codec e defs).size ctx path := by
  have outcome : (choice defs key cases otherwise e ctx.scope path).outcome =
      pure (.ok ⟨f, f.codec e defs⟩) := by
    rw [h]
    rfl
  unfold switchOf switch
  dsimp only
  unfold choice at outcome
  rw [outcome, pure_bind]

private theorem local_switch (reads : key.Reads near) (eager : ∀ entry ∈ cases, entry.1.Eager)
    (h : LocalAll near defs (alternatives cases otherwise)) :
    Local near (switchOf defs key cases otherwise) where
  size := @fun ctx ctx' carries path path' => by
    rcases choice_cases defs otherwise reads eager carries with
      ⟨f, mem, chosen⟩ | refused
    · have first (e : Engine) := switchOf_size_of_choice (chosen e path).1
      have second (e : Engine) := switchOf_size_of_choice (chosen e path').2
      simp only [first, second]
      exact (h f mem).size carries path path'
    -- If nothing is chosen here, a choice elsewhere has the one size that all formats have in
    -- common.
    · have first (e : Engine) := switchOf_size_of_error (refused e path)
      simp only [first]
      obtain ⟨result, sized, carried⟩ := carried_sizeOfAll key h carries path path'
      refine ⟨result, sized, fun n ok => ⟨trivial, fun e => ?_⟩⟩
      obtain ⟨each, there⟩ := carried n ok
      rcases choice_cases defs otherwise reads eager carries.target with
        ⟨f, mem, chosen⟩ | refused'
      · exact (switchOf_size_of_choice (chosen e path').1).trans
          ((each f mem).carried (h f mem) carries e path')
      · exact (switchOf_size_of_error (refused' e path')).trans (there e)
  parse := @fun ctx ctx' carries e e' path path' => by
    rcases choice_cases defs otherwise reads eager carries with
      ⟨f, mem, chosen⟩ | refused
    · have parsed := (h f mem).parse carries e e' path path'
      have run {ctx : Context} {e : Engine} {path : Path} (s : State) (here : s.context = ctx)
          (choose : choice defs key cases otherwise e ctx.scope path =
            pure ⟨f, f.codec e defs⟩) :
          (switchOf defs key cases otherwise e).parse path s =
            (f.codec e defs).parse path s := by
        subst here
        show (Run.lookup (choice defs key cases otherwise e s.context.scope path) >>=
          fun part => part.codec.parse path) s = _
        rw [choose]
        rfl
      refine (parsed.imp fun v n yields => ⟨yields.1, fun small k known => ?_⟩).congr
        (fun s here => run s here (chosen e path).1)
        (fun s here => run s here (chosen e' path').2)
      refine yields.2 small k fun e path => ?_
      rw [← switchOf_size_of_choice (chosen e path).1]
      exact known e path
    · intro m store v s ran
      obtain ⟨failure, failed⟩ := refused e path store
      have stopped : (switchOf defs key cases otherwise e).parse path
          ⟨.medium m, ctx, store⟩ = .error failure ⟨.medium m, ctx, store⟩ := by
        have looked : Run.lookup (choice defs key cases otherwise e ctx.scope path)
            ⟨.medium m, ctx, store⟩ = .error failure ⟨.medium m, ctx, store⟩ := by
          simp [Run.lookup, failed]
        exact Run.bind_of_error looked fun part => part.codec.parse path
      rw [stopped] at ran
      cases ran

end Switch

/-! ## Structures -/

/-- The fields of a structure have local codecs, each in the reach of the names before it. -/
def LocalFields (defs : Definitions) (near : Reach) : List String → List Format → Prop
  | _, [] => True
  | names, f :: rest =>
      f.isEmbedded = false ∧ Local (names :: near) (fun e => f.codec e defs) ∧
        LocalFields defs near (f.name?.toList ++ names) rest

section Structures

open Run (FollowedBy)
open Run.FollowedBy

variable {defs : Definitions}

/-- The entry of a component that has a name. -/
def entryOf (name : Option String) (v : Value) : Record Value := name.toList.map fun n => (n, v)

theorem notes_entryOf (name : Option String) {v : Value} (eager : v.Eager) :
    Notes (fun _ => True) (entryOf name v) := by
  intro entry mem
  obtain ⟨n, -, rfl⟩ := List.mem_map.mp mem
  exact ⟨eager, trivial⟩

private theorem carries_entryOf {names : List String}
    (carries : Reach.Carries (names :: near) ctx.frames ctx'.frames) (name : Option String)
    {v : Value} (eager : v.Eager) :
    Reach.Carries ((name.toList ++ names) :: near) (ctx.extend (entryOf name v)).frames
      (ctx'.extend (entryOf name v)).frames := by
  cases name with
  | none => exact carries
  | some name => exact carries.insert name eager

theorem noteItem_apply (p : Part) (v : Value) (s : State) :
    noteItem p v s =
      .ok () ⟨s.stream, s.context.extend (entryOf p.name? v), s.store⟩ := by
  unfold noteItem
  cases p.name? <;> rfl

private theorem then_noteItem {α : Type} {p p' : Part} {name : Option String}
    (named : p.name? = name)
    (named' : p'.name? = name) {v : Value} (eager : v.Eager) {fine : α → Nat → Prop}
    {x y : Run α}
    (next : FollowedBy (fun _ => True) fine x y (ctx.extend (entryOf name v))
      (ctx'.extend (entryOf name v))) :
    FollowedBy (fun _ => True) fine (noteItem p v >>= fun _ => x) (noteItem p' v >>= fun _ => y)
      ctx ctx' := by
  subst named
  intro m store a s ran
  rw [Run.bind_of_ok (noteItem_apply p v _)] at ran
  obtain ⟨n, entries, rfl, short, ok, noted, again⟩ := next m store a s ran
  refine ⟨n, entryOf p.name? v ++ entries, by rw [Context.extend_append], short, ok,
    (notes_entryOf _ eager).append noted, fun m' store' offers => ?_⟩
  rw [Run.bind_of_ok (noteItem_apply p' v _), named', Context.extend_append]
  exact again m' store' offers

/-! ### Their sizes -/

/-- The sizes of fields are known in a context and add up to so many bytes. -/
def SizesTo (defs : Definitions) (ctx : Context) : List Format → Nat → Prop
  | [], total => total = 0
  | f :: rest, total => ∃ a b, HasSize (fun e => f.codec e defs) ctx a ∧
      SizesTo defs ctx rest b ∧ total = Size.add a b

theorem carried_fieldsSize (carries : ∀ names : List String,
      Reach.Carries (names :: near) ctx.frames ctx'.frames) (path path' : Path) :
    ∀ {fs : List Format} {names : List String}, LocalFields defs near names fs →
      Carried (SizesTo defs ctx fs) (fun e => fieldsSize ctx path (Format.parts e defs fs))
        (fun e => fieldsSize ctx' path' (Format.parts e defs fs))
  | [], _, _ => .pure rfl
  | f :: rest, names, h => by
      obtain ⟨-, here, later⟩ := h
      simp only [Format.parts, fieldsSize, Part.name?]
      refine (here.carried_size (carries names) _ _).bind fun a ha => ?_
      exact (carried_fieldsSize carries path path' later).bind fun b hb => .pure ⟨a, b, ha, hb, rfl⟩

theorem carried_itemsSize (carries : ∀ names : List String,
      Reach.Carries (names :: near) ctx.frames ctx'.frames) (path path' : Path) :
    ∀ {fs : List Format} {names : List String} (i : Nat), LocalFields defs near names fs →
      Carried (SizesTo defs ctx fs) (fun e => itemsSize ctx path i (Format.parts e defs fs))
        (fun e => itemsSize ctx' path' i (Format.parts e defs fs))
  | [], _, _, _ => .pure rfl
  | f :: rest, names, i, h => by
      obtain ⟨-, here, later⟩ := h
      simp only [Format.parts, itemsSize, Part.name?]
      refine (here.carried_size (carries names) _ _).bind fun a ha => ?_
      exact (carried_itemsSize carries path path' (i + 1) later).bind
        fun b hb => .pure ⟨a, b, ha, hb, rfl⟩

/-! ### Their members -/

/-- Parses members into the innermost frame; `place` says where a member stands. -/
def parseMembers (place : Nat → Option String → Path) : Nat → List Part → Run (List Value)
  | _, [] => return []
  | i, member :: rest => do
    let v ← member.parse (place i member.name?)
    noteItem member v
    return v :: (← parseMembers place (i + 1) rest)

theorem parseItems_eq (path : Path) : ∀ (items : List Part) (i : Nat),
    parseItems path i items = parseMembers (fun i name => path.item name i) i items
  | [], _ => rfl
  | item :: rest, i => by
      rw [parseItems, parseMembers, parseItems_eq path rest (i + 1)]

theorem parseFields_eq (overwrite : Bool) (path : Path) : ∀ (fields : List Part) (i : Nat),
    (∀ field ∈ fields, field.format.isEmbedded = false) →
      parseFields overwrite false path fields =
        parseMembers (fun _ name => path.memberIf name) i fields >>= fun _ => pure ()
  | [], _, _ => rfl
  | field :: rest, i, h => by
      have plain := h field List.mem_cons_self
      have later := parseFields_eq overwrite path rest (i + 1)
        fun other mem => h other (List.mem_cons_of_mem field mem)
      rw [parseFields, parseMembers, later]
      simp only [plain, Bool.false_eq_true, if_false, noteItem, bind_assoc, pure_bind]
      cases field.name? with
      | none =>
          simp only [pure_bind]
          rfl
      | some name => rfl

section Members

variable {e e' : Engine} {fs : List Format} {names : List String} {entries : Record Value}

theorem isEmbedded_parts (e : Engine) : ∀ {fs : List Format} {names : List String},
    LocalFields defs near names fs →
      ∀ field ∈ Format.parts e defs fs, field.format.isEmbedded = false
  | [], _, _, _, mem => nomatch mem
  | f :: rest, names, h, field, mem => by
      rcases List.mem_cons.mp mem with rfl | mem
      · exact h.1
      · exact isEmbedded_parts e h.2.2 field mem

/-- The sizes that are known before anything was parsed hold of what is parsed. -/
private theorem followed_parseMembers (e e' : Engine) (place place' : Nat → Option String → Path)
    (carries : near.Carries ctx.frames ctx'.frames) :
    ∀ {fs : List Format} {names : List String} {entries : Record Value} (i : Nat),
      LocalFields defs near names fs → Notes (fun _ => True) entries →
      Reach.Carries (names :: near) ((ctx.push []).extend entries).frames
        ((ctx'.push []).extend entries).frames →
      FollowedBy (fun _ => True)
        (fun values n => Value.EagerItems values ∧
          (n ≤ Value.maxSize → ∀ k, SizesTo defs (ctx.push []) fs k → n = k))
        (parseMembers place i (Format.parts e defs fs))
        (parseMembers place' i (Format.parts e' defs fs))
        ((ctx.push []).extend entries) ((ctx'.push []).extend entries)
  | [], _, _, _, _, _, _ => .pure ⟨trivial, fun _ _ known => known.symm⟩
  | f :: rest, names, entries, i, h, noted, inner => by
      obtain ⟨-, here, later⟩ := h
      have joined (c : Context) (more last : Record Value) :
          ((c.extend entries).extend more).extend last = c.extend (entries ++ (more ++ last)) := by
        rw [Context.extend_append, Context.extend_append]
      have named (e : Engine) : Part.name? ⟨f, f.codec e defs⟩ = f.name? := rfl
      have first := (here.parse inner e e' (place i f.name?) (place' i f.name?)).tagged
      refine (first.allow fun _ _ => trivial).bind fun v n more yields noted' => ?_
      refine then_noteItem (named e) (named e') yields.1 ?_
      -- The frame of the rest holds what was noted by this member and the member itself.
      have known := carries_entryOf (inner.extend noted') f.name? yields.1
      rw [joined, joined] at known ⊢
      have all := noted.append (noted'.append (notes_entryOf f.name? yields.1))
      refine (followed_parseMembers e e' place place' carries (i + 1) later all known).bind
        fun values k _ total _ => .pure ⟨⟨yields.1, total.1⟩, fun small size sizes => ?_⟩
      obtain ⟨a, b, one, others, rfl⟩ := sizes
      have here' := one.carried here (carries.self.fresh noted.eager names)
      obtain rfl : n = a := yields.2 (by omega) a here'
      obtain rfl : k = b := total.2 (by omega) b others
      have fits : n + k ≤ Value.maxSize := by omega
      rw [Size.add_of_le fits, Nat.add_zero]

end Members

private theorem local_struct {fs : List Format} (h : LocalFields defs near [] fs)
    (overwrite : Bool) :
    Local near (fun e => struct e (Format.parts e defs fs) overwrite) where
  size := @fun ctx ctx' carries path path' => by
    exact (carried_fieldsSize carries.push path path' h).imp fun _ _ => trivial
  parse := @fun ctx ctx' carries e e' path path' => by
    have members := followed_parseMembers e e' (fun _ name => path.memberIf name)
      (fun _ name => path'.memberIf name) carries 0 h .nil (carries.push [])
    have fields : FollowedBy (fun _ => True)
        (fun _ n => n ≤ Value.maxSize → ∀ k, SizesTo defs (ctx.push []) fs k → n = k)
        (parseFields overwrite false path (Format.parts e defs fs))
        (parseFields overwrite false path' (Format.parts e' defs fs)) (ctx.push [])
          (ctx'.push []) := by
      rw [parseFields_eq overwrite path _ 0 (isEmbedded_parts e h),
        parseFields_eq overwrite path' _ 0 (isEmbedded_parts e' h)]
      exact members.bind fun _ n _ parsed _ => .pure parsed.2
    have framed : FollowedBy (· = "_index")
        (fun result n => Value.EagerFields result.2 ∧
          (n ≤ Value.maxSize → ∀ k, SizesTo defs (ctx.push []) fs k → n = k))
        (Run.inFrame [] (parseFields overwrite false path (Format.parts e defs fs)))
        (Run.inFrame [] (parseFields overwrite false path' (Format.parts e' defs fs))) ctx ctx' :=
      .inFrame fields fun _ n frame total eager => ⟨eager, total⟩
    refine framed.bind fun result n _ parsed _ => .pure ⟨parsed.1, fun small k known => ?_⟩
    have sized := (carried_fieldsSize carries.self.push path path h).eq_pure
      (known.apply e path default)
    exact parsed.2 small k sized.1

private theorem local_sequence {fs : List Format} (h : LocalFields defs near [] fs) :
    Local near (fun e => sequence e (Format.parts e defs fs)) where
  size := @fun ctx ctx' carries path path' => by
    exact (carried_itemsSize carries.push path path' 0 h).imp fun _ _ => trivial
  parse := @fun ctx ctx' carries e e' path path' => by
    have members := followed_parseMembers e e' (fun i name => path.item name i)
      (fun i name => path'.item name i) carries 0 h .nil (carries.push [])
    rw [← parseItems_eq, ← parseItems_eq] at members
    have framed : FollowedBy (· = "_index")
        (fun result n => Value.EagerItems result.1 ∧
          (n ≤ Value.maxSize → ∀ k, SizesTo defs (ctx.push []) fs k → n = k))
        (Run.inFrame [] (parseItems path 0 (Format.parts e defs fs)))
        (Run.inFrame [] (parseItems path' 0 (Format.parts e' defs fs))) ctx ctx' :=
      .inFrame members fun _ n frame parsed _ => parsed
    refine framed.bind fun result n _ parsed _ => .pure ⟨parsed.1, fun small k known => ?_⟩
    have sized := (carried_itemsSize carries.self.push path path 0 h).eq_pure
      (known.apply e path default)
    exact parsed.2 small k sized.1

end Structures

end Codec

/-! ## Formats -/

namespace Format

mutual

/-- The expressions of a format read names within reach, and it is made of numbers, text,
structures, repetitions, choices and envelopes that find their end themselves. -/
def Local (near : Reach) : Format → Prop
  | bytes length => length.Reads near
  | integer width _ _ => width.Reads near
  | flag | varint _ | zigzag | pass | terminatedText _ _ => True
  | prefixedText length _ => length.Local near
  | named _ of | documented _ of => of.Local near
  | struct fields _ | sequence fields => LocalFields near [] fields
  | array count of _ => count.Reads near ∧ of.Local near
  | prefixedArray count of => count.Local near ∧ of.Local near
  | branch condition yes no => condition.Reads near ∧ yes.Local near ∧ no.Local near
  | switch key cases otherwise =>
      key.Reads near ∧ LocalCases near cases ∧ LocalIf near otherwise
  | padded length of _ => length.Reads near ∧ of.Local near
  | aligned modulus of _ => modulus.Reads near ∧ of.Local near
  | prefixed length of _ lenient => lenient = false ∧ length.Local near ∧ of.Local near
  | fixedSized length of => length.Reads near ∧ of.Local near
  | constant of value => value.Eager ∧ of.Local near
  | computed x => x.Reads near
  | _ => False

/-- The fields of a structure; each reads the names of the ones before it. -/
def LocalFields (near : Reach) : List String → List Format → Prop
  | _, [] => True
  | names, f :: rest => f.Local (names :: near) ∧ LocalFields near (f.name?.toList ++ names) rest

def LocalCases (near : Reach) : List (Value × Format) → Prop
  | [] => True
  | (key, f) :: rest => key.Eager ∧ f.Local near ∧ LocalCases near rest

def LocalIf (near : Reach) : Option Format → Prop
  | none => True
  | some f => f.Local near

end

private theorem isEmbedded_of_local {near : Reach} : ∀ {f : Format}, f.Local near →
    f.isEmbedded = false :=
  isEmbedded_eq_false_of (P := Local near) id id id

mutual

/-- The formats that are local mean local codecs. -/
theorem local_codec (defs : Definitions) : ∀ {f : Format} {near : Reach}, f.Local near →
    Codec.Local near (fun e => f.codec e defs)
  | bytes length, _, h => Codec.local_bytes h
  | integer width signed endian, _, h => Codec.local_integer h signed endian
  | flag, _, _ => Codec.local_flag
  | varint maxBits, _, _ => Codec.local_varint maxBits
  | zigzag, _, _ => Codec.local_zigzag
  | pass, _, _ => Codec.local_pass
  | terminatedText terminators encoding, _, _ =>
      Codec.local_terminatedText terminators encoding
  | prefixedText length encoding, _, h =>
      Codec.local_prefixedText (local_codec defs (f := length) h) length encoding
  | named _ of, _, h => local_codec defs (f := of) h
  | documented _ of, _, h => local_codec defs (f := of) h
  | struct fields overwrite, _, h =>
      Codec.local_struct (local_fields defs h) overwrite
  | sequence items, _, h => Codec.local_sequence (local_fields defs h)
  | array count of discard, _, h => Codec.local_array h.1 (local_codec defs h.2) of discard
  | prefixedArray count of, _, h =>
      Codec.local_prefixedArray (local_codec defs h.1) (local_codec defs h.2) count of
  | branch condition yes no, _, h =>
      Codec.local_branch h.1 (local_codec defs h.2.1) (local_codec defs h.2.2)
  | switch key cases otherwise, near, h => by
      have formats : Codec.LocalAll near defs (Codec.alternatives cases otherwise) := by
        intro f mem
        rcases List.mem_append.mp mem with mem | mem
        · obtain ⟨entry, listed, rfl⟩ := List.mem_map.mp mem
          exact (local_cases defs h.2.1 entry listed).2
        · exact local_if defs h.2.2 f mem
      exact Codec.local_switch h.1 (fun entry mem => (local_cases defs h.2.1 entry mem).1) formats
  | padded length of fill, _, h => Codec.local_padded h.1 (local_codec defs h.2) fill
  | aligned modulus of fill, _, h => Codec.local_aligned h.1 (local_codec defs h.2) fill
  | prefixed length of inclusive lenient, _, h => by
      obtain ⟨rfl, first, second⟩ := h
      exact Codec.local_prefixed (local_codec defs first) (local_codec defs second) length inclusive
  | fixedSized length of, _, h => Codec.local_fixedSized h.1 (local_codec defs h.2)
  | constant of value, _, h => Codec.local_constant (local_codec defs h.2) h.1
  | computed x, _, h => Codec.local_computed h

theorem local_fields (defs : Definitions) : ∀ {fs : List Format} {near : Reach}
    {names : List String}, LocalFields near names fs → Codec.LocalFields defs near names fs
  | [], _, _, _ => trivial
  | _ :: _, _, _, h =>
      ⟨isEmbedded_of_local h.1, local_codec defs h.1, local_fields defs h.2⟩

theorem local_cases (defs : Definitions) : ∀ {cases : List (Value × Format)} {near : Reach},
    LocalCases near cases → ∀ entry ∈ cases,
      entry.1.Eager ∧ Codec.Local near (fun e => entry.2.codec e defs)
  | [], _, _, _, mem => nomatch mem
  | (key, f) :: rest, _, h, entry, mem => by
      rcases List.mem_cons.mp mem with rfl | mem
      · exact ⟨h.1, local_codec defs h.2.1⟩
      · exact local_cases defs h.2.2 entry mem

theorem local_if (defs : Definitions) : ∀ {otherwise : Option Format} {near : Reach},
    LocalIf near otherwise → ∀ f ∈ otherwise.toList, Codec.Local near (fun e => f.codec e defs)
  | none, _, _, _, mem => nomatch mem
  | some f, _, h, g, mem => by
      cases List.mem_singleton.mp mem
      exact local_codec defs h

end

end Format

end BinaryFormat
