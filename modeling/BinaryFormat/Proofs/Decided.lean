import BinaryFormat.Format.Checksums
import BinaryFormat.Proofs.Faithful

/-!
# Decisions on a field that is still pending

A field that is computed from later ones holds a placeholder in its frame until
its patch is applied, and a decision on the field that is taken before then sees
the placeholder.  Where the placeholder decides as the value that is patched in
does, what was built is parsed again, through the same branches.
-/

namespace BinaryFormat

namespace Value

/-- An integer, a byte string, or nothing. -/
def IsAtom : Value → Prop
  | none | int _ | bytes _ => True
  | _ => False

end Value

theorem Resolver.equal_atom (r : Resolver) {key v : Value} (plain : key.isLazy = false)
    (atom : v.IsAtom) (store : LazyStore) : r.equal key v store = .ok (key.same v) store := by
  cases v <;> simp only [Value.IsAtom] at atom <;> cases key <;>
    simp_all [Resolver.equal, Resolver.compare, Value.isLazy]

/-! ## Decisions -/

/-- A choice between components by the value of a field. -/
inductive Decision where
  | branch (yes no : Format)
  | switch (cases : List (Value × Format)) (fallback : Option Format)

namespace Decision

/-- The component of the first case whose key is the value. -/
def caseFor (v : Value) (fallback : Option Format) : List (Value × Format) → Option Format
  | [] => fallback
  | (key, f) :: rest => if key.same v then some f else caseFor v fallback rest

/-- The component that a value chooses. -/
def choice (v : Value) : Decision → Option Format
  | branch yes no => some (if v.holds then yes else no)
  | switch cases fallback => caseFor v fallback cases

def format (key : String) : Decision → Format
  | branch yes no => .branch (.field key) yes no
  | switch cases fallback => .switch (.field key) cases fallback

/-- No case has a lazy key. -/
def Plain : Decision → Prop
  | branch _ _ => True
  | switch cases _ => ∀ c ∈ cases, c.1.isLazy = false

variable {e : Engine} {defs : Definitions} {d : Decision} {key : String} {v : Value} {s : State}

private theorem findCase_atom (fallback : Option Format) {cases : List (Value × Format)}
    (plain : ∀ c ∈ cases, c.1.isLazy = false) (atom : v.IsAtom) (store : LazyStore) :
    Codec.findCase e.resolver v (Format.partIf e defs fallback) (Format.casesOf e defs cases)
      store = .ok (Format.partIf e defs (caseFor v fallback cases)) store := by
  induction cases with
  | nil => rfl
  | cons c rest ih =>
      obtain ⟨key, f⟩ := c
      have test := e.resolver.equal_atom (plain _ List.mem_cons_self) atom store
      rw [caseFor, Format.casesOf, Codec.findCase, Run.bind_of_ok test]
      by_cases same : key.same v = true
      · rw [if_pos same, if_pos same]
        rfl
      · rw [if_neg same, if_neg same]
        exact ih fun c mem => plain c (List.mem_cons_of_mem _ mem)

private theorem codec_of_choice (e : Engine) (defs : Definitions)
    (shown : Record.isPrivate key = false) (plain : d.Plain)
    (atom : v.IsAtom) (sees : Record.get? s.context.innermost key = some v) {path : Path} :
    (∃ f, d.choice v = some f ∧
      (∀ u, ((d.format key).codec e defs).build u path s = (f.codec e defs).build u path s) ∧
      ((d.format key).codec e defs).parse path s = (f.codec e defs).parse path s) ∨
    d.choice v = none ∧
      ∀ u w s', ((d.format key).codec e defs).build u path s ≠ .ok w s' := by
  have sees := Engine.sees_field shown sees
  cases d with
  | branch yes no =>
      refine Or.inl ⟨_, rfl, fun u => ?_, ?_⟩ <;>
      · simp only [format, Format.codec, Codec.branch]
        rw [Run.bind_of_ok (e.evalHolds_of_sees sees)]
        cases v.holds <;> rfl
  | switch cases fallback =>
      have scope : Run.scope s = .ok s.context.scope s := rfl
      have found : Codec.findCase e.resolver v (Format.partIf e defs fallback)
          (Format.casesOf e defs cases) s.store =
            .ok (Format.partIf e defs (caseFor v fallback cases)) s.store :=
        findCase_atom fallback plain atom s.store
      cases chosen : caseFor v fallback cases with
      | some f =>
          have picked : Run.lookup (Codec.chooseCase e.resolver (.field key)
              (Format.casesOf e defs cases) (Format.partIf e defs fallback) s.context.scope path)
                s = .ok ⟨f, f.codec e defs⟩ s := by
            rw [Run.lookup, Codec.chooseCase, Run.bind_of_ok (sees e.resolver path s.store),
              Run.bind_of_ok found, chosen]
            rfl
          refine Or.inl ⟨f, chosen, fun u => ?_, ?_⟩ <;>
          · simp only [format, Format.codec, Codec.switch]
            rw [Run.bind_of_ok scope, Run.bind_of_ok picked]
      | none =>
          refine Or.inr ⟨chosen, fun u w s' run => ?_⟩
          have refused : Run.lookup (Codec.chooseCase e.resolver (.field key)
              (Format.casesOf e defs cases) (Format.partIf e defs fallback) s.context.scope path)
                s = .error ((Fault.noCase (v.dump s.store.resolved)).atPath path) s := by
            rw [Run.lookup, Codec.chooseCase, Run.bind_of_ok (sees e.resolver path s.store),
              Run.bind_of_ok found, chosen]
            rfl
          simp only [format, Format.codec, Codec.switch] at run
          rw [Run.bind_of_ok scope, Run.bind_of_error refused] at run
          cases run

/-- A decision is faithful where both frames choose the same component. -/
private theorem faithful (shown : Record.isPrivate key = false) (plain : d.Plain) {seen v u : Value}
    (atom : seen.IsAtom) (atom' : v.IsAtom) (same : d.choice seen = d.choice v)
    (each : ∀ f, d.choice v = some f →
      (f.codec e defs).Faithful u Codec.Anywhere Codec.Anywhere) :
    ((d.format key).codec e defs).Faithful u
      (fun frame => Record.get? frame key = some seen)
      (fun frame => Record.get? frame key = some v) := by
  intro path before ctx store w s start run
  rcases codec_of_choice e defs (s := ⟨.atEnd before, ctx, store⟩) shown plain atom start
    with ⟨f, chosen, builds, -⟩ | ⟨-, fails⟩
  · rw [builds] at run
    rw [same] at chosen
    obtain ⟨data, store', left, shows⟩ := each f chosen path before ctx store w s trivial run
    refine ⟨data, store', left, fun small m suffix ctx₂ store₂ path₂ pos next start' => ?_⟩
    rcases codec_of_choice e defs (s := ⟨.medium m, ctx₂, store₂⟩) shown plain atom' start'
      with ⟨g, chosen', -, parses⟩ | ⟨none, -⟩
    · obtain rfl : f = g := Option.some.inj (chosen.symm.trans chosen')
      rw [parses]
      exact shows small m suffix ctx₂ store₂ path₂ pos next trivial
    · cases chosen.symm.trans none
  · exact absurd run (fails _ _ _)

end Decision

/-! ## A component that a patch can fill -/

namespace Format

/-- A component of constant size for integers or byte strings, which reads what it writes. -/
structure Cell (defs : Definitions) (of : Format) (width : Nat) : Prop where
  size : ∀ e, Serves defs e → ∀ ctx path store,
    (of.codec e defs).size ctx path store = .ok width store
  holds : ∀ e, Serves defs e → ∀ u data pos ctx store path w s,
    (of.codec e defs).build u path ⟨.growing data pos, ctx, store⟩ = .ok w s →
      ∃ stored, stored.length = width ∧
        s = ⟨.growing (Medium.overlay data pos stored) (pos + width), ctx, store⟩ ∧
        w.IsAtom ∧ (w.InRange → ∀ e', Serves defs e' → (of.codec e' defs).ReadAs w stored)

theorem cell_integer (defs : Definitions) {width : Nat} (signed : Bool) (endian : Endian)
    (narrow : width ≤ 16) : Cell defs (integer (.const (.int width)) signed endian) width where
  size e _ ctx path store := e.staticSize_const (Nat.le_trans narrow (by decide)) ctx path store
  holds e _ u data pos ctx store path w s built := by
    obtain ⟨n, k, same, positive, -, -, fits, rfl, rfl⟩ := Codec.integer_of_build built
    obtain rfl : width = n := Int.ofNat.inj same
    refine ⟨_, by rw [Integer.length_inOrder, Bytes.length_ofNat], rfl, trivial,
      fun small e' _ => Codec.readAs_integer positive narrow fits small⟩

theorem cell_bytes (defs : Definitions) {width : Nat} (room : width ≤ Value.maxSize) :
    Cell defs (bytes (.const (.int width))) width where
  size e _ ctx path store := e.staticSize_const room ctx path store
  holds e _ u data pos ctx store path w s built := by
    obtain ⟨stored, same, -, rfl, rfl, rfl⟩ := Codec.bytes_of_build built
    obtain rfl : width = stored.length := Int.ofNat.inj same
    exact ⟨stored, rfl, rfl, trivial, fun _ e' _ => Codec.readAs_bytes room⟩

end Format

theorem Engine.eval_apply (e : Engine) (x : Expr) (path : Path) (s : State) :
    e.eval x path s = Run.lookup (x.evaluate e.resolver s.context.scope path) s := rfl

namespace Codec

variable {defs : Definitions} {e : Engine} {of : Format} {width : Nat}

theorem reserved_of_reserve {patch : Patch} {w : Value} {path : Path} {before : List UInt8}
    {ctx : Context} {store : LazyStore} {s : State}
    (known : (of.codec e defs).size ctx path store = .ok width store)
    (run : reserve ⟨of, of.codec e defs⟩ patch path ⟨.atEnd before, ctx, store⟩ = .ok w s) :
    w = .none ∧ ∃ store', s = ⟨.atEnd (before ++ List.replicate width 0),
      ctx.defer (reservation ⟨of, of.codec e defs⟩ patch path before.length width), store'⟩ := by
  have known : (⟨of, of.codec e defs⟩ : Part).codec.size ctx path store = _ := known
  rw [Stream.atEnd_eq, reserve_apply _ known] at run
  cases run
  exact ⟨rfl, store, by rw [Stream.state_overlay_at_end before (List.length_replicate ..)]⟩

theorem built_or_reserved (serves : Format.Serves defs e) (cell : of.Cell defs width)
    {expr : Expr} {u w : Value} {path : Path} {before : List UInt8} {ctx : Context}
    {store : LazyStore} {s : State}
    (run : (rebuild e ⟨of, of.codec e defs⟩ expr).build u path ⟨.atEnd before, ctx, store⟩ =
      .ok w s) :
    (∃ v store', (of.codec e defs).build v path ⟨.atEnd before, ctx, store'⟩ = .ok w s) ∨
    (∃ failure store', expr.evaluate e.resolver ctx.scope path store = .error failure store' ∧
      failure.fault.isPending = true) ∧
    w = .none ∧ ∃ store', s = ⟨.atEnd (before ++ List.replicate width 0),
      ctx.defer (reservation ⟨of, of.codec e defs⟩ (.value expr) path before.length width),
      store'⟩ := by
  rw [rebuild] at run
  dsimp only at run
  cases seen : expr.evaluate e.resolver ctx.scope path store with
  | ok v store' =>
      have eval : e.eval expr path ⟨.atEnd before, ctx, store⟩ =
          .ok v ⟨.atEnd before, ctx, store'⟩ := by
        rw [Engine.eval_apply, Run.lookup, seen]
      rw [Run.bind_of_ok (Run.outcome_of_ok eval)] at run
      exact Or.inl ⟨v, store', run⟩
  | error failure store' =>
      have eval : e.eval expr path ⟨.atEnd before, ctx, store⟩ =
          .error failure ⟨.atEnd before, ctx, store'⟩ := by
        rw [Engine.eval_apply, Run.lookup, seen]
      have known := cell.size e serves ctx path store'
      rw [Run.bind_of_ok (Run.outcome_of_error eval)] at run
      dsimp only at run
      split at run
      · next waits =>
          rw [Run.bind_of_ok (Run.outcome_of_ok (sizeNow_of_ok
            (s := ⟨.atEnd before, ctx, store'⟩) known))] at run
          exact Or.inr ⟨⟨failure, store', rfl, waits⟩, reserved_of_reserve known run⟩
      · cases run

/-- A field that is rebuilt holds what it is built from, or its bytes are reserved. -/
private theorem rebuilt_or_reserved (serves : Format.Serves defs e) (cell : of.Cell defs width)
    {expr : Expr} {u w : Value} {path : Path} {before : List UInt8} {ctx : Context}
    {store : LazyStore} {s : State}
    (run : (rebuild e ⟨of, of.codec e defs⟩ expr).build u path ⟨.atEnd before, ctx, store⟩ =
      .ok w s) :
    (∃ stored store', stored.length = width ∧ s = ⟨.atEnd (before ++ stored), ctx, store'⟩ ∧
      w.IsAtom ∧
      (w.InRange → ∀ e', Format.Serves defs e' → (of.codec e' defs).ReadAs w stored)) ∨
    w = .none ∧ ∃ store', s = ⟨.atEnd (before ++ List.replicate width 0),
      ctx.defer (reservation ⟨of, of.codec e defs⟩ (.value expr) path before.length width),
      store'⟩ := by
  refine (built_or_reserved serves cell run).imp (fun ⟨v, store', made⟩ => ?_) And.right
  obtain ⟨stored, length, rfl, atom, yields⟩ := cell.holds e serves _ _ _ _ _ _ _ _ made
  exact ⟨stored, store', length, Stream.state_overlay_at_end before length ctx store', atom,
    yields⟩

end Codec

namespace Format

/-- A patch that is the only one of a frame is applied and noted under its name, or it stays
and the frame is what it was. -/
private theorem patched_or_left {defs : Definitions} {d : Deferred} {width : Nat} {key : String}
    {front back : List UInt8} {ctx : Context} {store : LazyStore} {s : State}
    (cell : d.field.Cell defs width) (queue : ctx.top.deferred = [d])
    (offset : d.offset = front.length) (scopes : d.scopes = [])
    (depth : d.depth = ctx.below.length) (own : d.path.fieldName? = some key)
    (noted : ctx.innermost.contains key = true)
    (run : (inner defs).resolvePending ⟨.atEnd (front ++ (List.replicate width 0 ++ back)), ctx,
      store⟩ = .ok () s) :
    (∃ v stored ctx' store', stored.length = width ∧ v.IsAtom ∧
      (v.InRange → ∀ e, Serves defs e → (d.field.codec e defs).ReadAs v stored) ∧
      s = ⟨.atEnd (front ++ (stored ++ back)), ctx', store'⟩ ∧
      ctx'.innermost = ctx.innermost.insert key v ∧ ctx'.below = ctx.below ∧
      ctx'.top.deferred = []) ∨
    s.context.innermost = ctx.innermost := by
  rw [Engine.resolvePending, Engine.resolveSince_apply] at run
  dsimp only at run
  rw [queue, List.drop_zero] at run
  obtain ⟨unresolved, s₁, applied, requeued⟩ := Run.bind_eq_ok_iff.mp run
  cases requeued
  rcases Engine.applied_or_left_of_applyPatches applied with
    ⟨_, store', s₂, -, patched, last⟩ | ⟨_, _, _, -, -, -, last, rfl⟩
  · cases last
    obtain ⟨v, stored, length, ⟨atom, yields⟩, rfl⟩ := patched_of_apply
      (buildsPatches_inner defs) (List.length_replicate ..) offset
      (fun e serves _ _ _ _ _ _ _ made => cell.holds e serves _ _ _ _ _ _ _ _ made) patched
    have kept := (ctx.discardSince 0).kept_noted d v
    refine Or.inl ⟨v, stored, _, store', length, atom, yields, rfl, ?_, kept.below, ?_⟩
    · have here : (ctx.discardSince 0).noted d v = (ctx.discardSince 0).insert key v := by
        have depth : d.depth = (ctx.discardSince 0).below.length := depth
        have noted : (ctx.discardSince 0).innermost.contains key = true := noted
        simp only [Context.noted, scopes, List.isEmpty_nil, depth, BEq.rfl, Bool.and_self,
          if_true, own, noted]
      rw [here]
      rfl
    · show ((ctx.discardSince 0).noted d v).top.deferred ++ [] = []
      rw [kept.deferred]
      rfl
  · cases last
    exact Or.inr rfl

end Format

/-! ## Structures with a pending field -/

/-- A field behind the one that is pending. -/
inductive Follower where
  | plain (of : Format)
  | decision (label : Option String) (d : Decision)

namespace Follower

def format (key : String) : Follower → Format
  | plain of => of
  | decision label d => label.elim id Format.named (d.format key)

/-- The field is parsed as it is built from the input; of a decision, all components are. -/
def Fits (e : Engine) (defs : Definitions) (input : Record Value) : Follower → Prop
  | plain of => (⟨of, of.codec e defs⟩ : Part).Faithful input Codec.Anywhere Codec.Anywhere
  | decision _ d => d.Plain ∧ ∀ v f, d.choice v = some f →
      ∀ u, (f.codec e defs).Faithful u Codec.Anywhere Codec.Anywhere

private theorem isEmbedded_decision (key : String) (label : Option String) (d : Decision) :
    ((decision label d).format key).isEmbedded = false := by
  cases label <;> cases d <;> rfl

private theorem codec_decision (e : Engine) (defs : Definitions) (key : String)
    (label : Option String)
    (d : Decision) :
    ((decision label d).format key).codec e defs = (d.format key).codec e defs := by
  cases label <;> rfl

end Follower

namespace Format

/-- A structure with a field that is rebuilt from what may come later, and with decisions on
this field behind it. -/
structure Deciding (defs : Definitions) where
  key : String
  stored : Format
  expr : Expr
  before : List Format
  after : List Follower
  overwrite : Bool
  shown : Record.isPrivate key = false
  /-- The name is no path of several names. -/
  single : (Path.this.member key).fieldName? = some key
  distinct : (fieldNames before ++ key :: fieldNames (after.map (Follower.format key))).Nodup

namespace Deciding

variable {defs : Definitions} (f : Deciding defs)

def followers : List Format := f.after.map (Follower.format f.key)

def keyField : Format := .named f.key (.rebuild f.stored f.expr)

def format : Format := .struct (f.before ++ f.keyField :: f.followers) f.overwrite

/-- The names of the other fields. -/
def others : List String := fieldNames f.before ++ fieldNames f.followers

/-- All decisions on the field fall the same way. -/
def Agree (seen v : Value) : Prop :=
  ∀ label d, .decision label d ∈ f.after → d.choice seen = d.choice v

variable {f}

private theorem faithful_followers {e : Engine} {input : Record Value} {seen v : Value}
    (fits : ∀ g ∈ f.after, g.Fits e defs input) (agree : f.Agree seen v) (atom : seen.IsAtom)
    (atom' : v.IsAtom) :
    ∀ p ∈ parts e defs f.followers, p.Faithful input
      (fun frame => Record.get? frame f.key = some seen)
      (fun frame => Record.get? frame f.key = some v) := by
  rw [followers]
  have agree : ∀ label d, Follower.decision label d ∈ f.after → d.choice seen = d.choice v := agree
  generalize f.after = after at fits agree
  induction after with
  | nil => exact fun _ mem => absurd mem List.not_mem_nil
  | cons g rest ih =>
      intro p mem
      rcases List.mem_cons.mp mem with rfl | mem
      · have here := fits g List.mem_cons_self
        cases g with
        | plain of => exact ⟨here.flat, here.codec.over⟩
        | decision label d =>
            refine ⟨Follower.isEmbedded_decision f.key label d, ?_⟩
            rw [Follower.codec_decision]
            exact d.faithful f.shown here.1 atom atom' (agree label d List.mem_cons_self)
              fun g chosen => here.2 v g chosen _
      · exact ih (fun g mem => fits g (List.mem_cons_of_mem _ mem))
          (fun label d mem => agree label d (List.mem_cons_of_mem _ mem)) p mem

private theorem apart_followers (e : Engine) (v : Value) : Codec.Apart (parts e defs f.followers)
    (fun frame => Record.get? frame f.key = some v) := by
  intro frame frame' same start
  have fresh : f.key ∉ fieldNames f.followers :=
    (List.nodup_cons.mp (List.nodup_append.mp f.distinct).2.1).1
  exact (same _ (by rwa [names_parts]) f.shown).trans start

private theorem parse_of_recalls {e : Engine} {front stored back : List UInt8}
    {noted : Record Value}
    {v : Value}
    (before : Codec.Recalls (parts e defs f.before) 0 front Codec.Anywhere noted)
    (yields : (f.stored.codec e defs).ReadAs v stored)
    (after : Codec.Recalls (parts e defs f.followers) (front.length + stored.length) back
      (fun frame => Record.get? frame f.key = some v) noted)
    {m : Medium} {suffix : List UInt8} (start : m.pos = 0)
    (next : m.rest = front ++ (stored ++ back) ++ suffix) (ctx : Context) (store : LazyStore)
    (path : Path) :
    ∃ ps, (f.format.codec e defs).parse path ⟨.medium m, ctx, store⟩ = .ok (.container ps)
        ⟨.medium (m.skip (front ++ (stored ++ back)).length), ctx, store⟩ ∧
      Record.get? ps f.key = some v ∧
      ∀ k ∈ f.others, Record.isPrivate k = false →
        ∃ w p, Record.get? noted k = some w ∧ Record.get? ps k = some p ∧ w.Covers p := by
  have distinct := f.distinct
  rw [List.nodup_append, List.nodup_cons] at distinct
  obtain ⟨-, ⟨fresh, -⟩, apart⟩ := distinct
  simp only [List.append_assoc] at next
  obtain ⟨ctx₁, run₁, kept₁, -, same₁, shows₁⟩ := before f.overwrite m _ (ctx.push []) store path
    start next trivial
  have next₁ := Medium.rest_skip next
  obtain ⟨ctx₂, run₂, quiet⟩ :=
    yields _ _ ctx₁ store (path.member f.key) next₁
  have next₂ := Medium.rest_skip next₁
  have pos₂ : ((m.skip front.length).skip stored.length).pos = front.length + stored.length := by
    rw [Medium.skip_pos, Medium.skip_pos, start, Nat.zero_add]
  obtain ⟨ctx₃, run₃, kept₃, -, same₃, shows₃⟩ := after f.overwrite _ suffix
    (ctx₂.insert f.key v) store path pos₂ next₂ (Record.get?_insert_self _ _ _)
  rw [names_parts] at same₁ shows₁ same₃ shows₃
  have key : Codec.parseFields f.overwrite false path (⟨f.keyField, f.keyField.codec e defs⟩ ::
      parts e defs f.followers) ⟨.medium (m.skip front.length), ctx₁, store⟩ =
        .ok () ⟨.medium (((m.skip front.length).skip stored.length).skip back.length), ctx₃,
          store⟩ := by
    have noting : Run.insert f.key v ⟨.medium ((m.skip front.length).skip stored.length), ctx₂,
        store⟩ = .ok () ⟨.medium ((m.skip front.length).skip stored.length),
          ctx₂.insert f.key v, store⟩ := rfl
    rw [Codec.parseFields]
    exact (Run.bind_of_ok (Part.parse_of_ok run₂) _).trans ((Run.bind_of_ok noting _).trans run₃)
  have fields : Codec.parseFields f.overwrite false path
      (parts e defs (f.before ++ f.keyField :: f.followers)) ⟨.medium m, ctx.push [], store⟩ =
        .ok () ⟨.medium (m.skip (front ++ (stored ++ back)).length), ctx₃, store⟩ := by
    rw [parts_append, parts, Codec.parseFields_append, Run.bind_of_ok run₁, key,
      Medium.skip_skip, Medium.skip_skip, List.length_append, List.length_append]
  have framed := Run.inFrame_of_ok fields
  rw [Context.pop_of_kept (((kept₁.trans quiet.kept).trans
    (Context.kept_insert ctx₂ f.key v)).trans kept₃)] at framed
  refine ⟨ctx₃.innermost, ?_, (same₃ _ fresh f.shown).trans (Record.get?_insert_self _ _ _),
    fun k mem shown => ?_⟩
  · simp only [format, codec, Codec.struct]
    rw [Run.bind_of_ok framed]
    rfl
  · rcases List.mem_append.mp mem with mem | mem
    · obtain ⟨w, p, noted, found, covers⟩ := shows₁ k mem shown
      refine ⟨w, p, noted, ?_, covers⟩
      have other : f.key ≠ k := by
        rintro rfl
        exact apart _ mem _ List.mem_cons_self rfl
      have absent : k ∉ fieldNames f.followers :=
        fun hit => apart k mem k (List.mem_cons_of_mem _ hit) rfl
      rw [same₃ k absent shown]
      exact (Record.get?_insert_of_ne other _ _).trans ((quiet.shown k shown).trans found)
    · exact shows₃ k mem shown

/-! ## Whole runs -/

variable {width : Nat} {input ws params : Record Value} {v : Value} {store : LazyStore}
  {s : State}

/-- The field holds a value or the placeholder while the others are built. -/
private theorem followers_of_buildFields {seen : Value} {front cell : List UInt8} {ctx : Context}
    (after : ∀ g ∈ f.after, g.Fits (inner defs) defs input) (atom : seen.IsAtom) (atom' : v.IsAtom)
    (agree : f.Agree seen v)
    (run : Codec.buildFields input .this (parts (inner defs) defs f.followers)
      ⟨.atEnd (front ++ cell), ctx.insert f.key seen, store⟩ = .ok () s) :
    ∃ back ctx' store', s = ⟨.atEnd (front ++ cell ++ back), ctx', store'⟩ ∧ ctx.Kept ctx' ∧
      Record.get? ctx'.innermost f.key = some seen ∧
      (∀ k ∈ fieldNames f.before,
        Record.get? ctx'.innermost k = Record.get? ctx.innermost k) ∧
      ((∀ k ∈ fieldNames f.followers, ∀ w,
          Record.get? ctx'.innermost k = some w → w.InRange) →
        Codec.Recalls (parts (inner defs) defs f.followers) (front.length + cell.length) back
          (fun frame => Record.get? frame f.key = some v) ctx'.innermost) := by
  have distinct := f.distinct
  rw [List.nodup_append, List.nodup_cons] at distinct
  obtain ⟨-, ⟨fresh, own⟩, apart⟩ := distinct
  have noted : Record.get? (ctx.insert f.key seen).innermost f.key = some seen :=
    Record.get?_insert_self _ _ _
  obtain ⟨back, ctx', store', left, kept, same, shows⟩ := Codec.recalls_of_buildFields
    (faithful_followers after agree atom atom') (by rwa [names_parts])
    (apart_followers _ _) (apart_followers _ _) noted run
  rw [names_parts] at same shows
  rw [List.length_append] at shows
  refine ⟨back, ctx', store', left, (Context.kept_insert ctx f.key seen).trans kept,
    (same _ fresh).trans noted, fun k mem => ?_, fun small => shows (Or.inr small)⟩
  have other : f.key ≠ k := by
    rintro rfl
    exact apart _ mem _ List.mem_cons_self rfl
  exact (same k fun hit => apart k mem k (List.mem_cons_of_mem _ hit) rfl).trans
    (Record.get?_insert_of_ne other _ _)

/-- What building leaves: bytes that show the frame, if the decisions on the placeholder fall as
those on the value that the field has in the end. -/
private theorem recalls_of_buildBytes (cell : f.stored.Cell defs width)
    (before : ∀ e, ∀ p ∈ parts e defs f.before,
      p.Faithful input Codec.Anywhere Codec.Anywhere)
    (after : ∀ e, ∀ g ∈ f.after, g.Fits e defs input)
    (built : f.format.buildBytes (.ofDefinitions defs) (.container input) params store =
      .ok (.container ws) s)
    (small : (Value.container ws).InRange) (final : Record.get? ws f.key = some v)
    (filled : v ≠ .none) (agree : f.Agree .none v) :
    ∃ front stored back, s.stream = .atEnd (front ++ (stored ++ back)) ∧
      Codec.Recalls (parts (inner defs) defs f.before) 0 front Codec.Anywhere ws ∧
      (f.stored.codec (inner defs) defs).ReadAs v stored ∧
      Codec.Recalls (parts (inner defs) defs f.followers) (front.length + stored.length) back
        (fun frame => Record.get? frame f.key = some v) ws := by
  have distinct := f.distinct
  rw [List.nodup_append, List.nodup_cons] at distinct
  obtain ⟨own, ⟨fresh, -⟩, apart⟩ := distinct
  have fresh' : f.key ∉ fieldNames f.before :=
    fun mem => apart _ mem _ List.mem_cons_self rfl
  obtain ⟨s₁, s₂, fields, settled, isFrame, resolved⟩ := fields_of_buildBytes built
  obtain rfl : ws = s₂.context.innermost := Value.container.inj isFrame
  have small : ∀ k w, Record.get? s₂.context.innermost k = some w → w.InRange :=
    fun k w found => Value.InRangeFields.get? small found
  rw [parts_append, parts, Codec.buildFields_append] at fields
  obtain ⟨_, s₃, first, fields⟩ := Run.bind_eq_ok_iff.mp fields
  obtain ⟨front, ctx₁, store₁, rfl, kept₁, same₁, shows₁⟩ := Codec.recalls_of_buildFields
    (before _) (by rwa [names_parts]) (Codec.apart_anywhere _) (Codec.apart_anywhere _) trivial
    first
  rw [names_parts] at same₁ shows₁
  obtain ⟨u, w, s₄, here, fields⟩ : ∃ u w s₄,
      (Codec.rebuild (inner defs) ⟨f.stored, f.stored.codec (inner defs) defs⟩ f.expr).build u
        (Path.this.member f.key) ⟨.atEnd ([] ++ front), ctx₁, store₁⟩ = .ok w s₄ ∧
      Codec.buildFields input .this (parts (inner defs) defs f.followers)
        { s₄ with context := s₄.context.insert f.key w } = .ok () s₁ := by
    rcases first_of_buildFields rfl fields with
      ⟨name, u, w, s₄, label, -, here, later⟩ | ⟨w, s₄, label, -, -⟩
    · obtain rfl : f.key = name := Option.some.inj label
      exact ⟨u, w, s₄, here, later⟩
    · cases label
  have unset : Value.IsAtom .none := trivial
  rw [List.nil_append] at here
  -- Either the field has its value at once and the others were built behind it, or they were built
  -- behind a placeholder and the patch was applied when the frame was complete.
  rcases Codec.rebuilt_or_reserved (serves_inner defs) cell here with
    ⟨stored, store₂, -, rfl, atom, yields⟩ | ⟨rfl, store₂, rfl⟩
  · obtain ⟨back, ctx₃, store₃, rfl, kept, key, same, shows₃⟩ :=
      followers_of_buildFields (after _) atom atom (fun _ _ _ => rfl) fields
    rw [Engine.resolvePending_of_empty _ (kept₁.trans kept).deferred] at settled
    cases settled
    obtain rfl : w = v := Option.some.inj (key.symm.trans final)
    rw [Context.pop_of_kept (kept₁.trans kept), Engine.resolveSince_of_empty rfl] at resolved
    cases resolved
    refine ⟨front, stored, back, by rw [List.append_assoc], ?_,
      yields (small _ _ final) _ (serves_inner defs), shows₃ fun k _ w found => small k w found⟩
    exact (shows₁ (Or.inr fun k mem w found => small k w ((same k mem).trans found))).noted
      (by rwa [names_parts])
  · have run := fields
    obtain ⟨back, ctx₃, store₃, rfl, kept, key, same, -⟩ :=
      followers_of_buildFields (after _) unset unset (fun _ _ _ => rfl) run
    have queue : ctx₃.top.deferred =
        [{ Codec.reservation ⟨f.stored, f.stored.codec (inner defs) defs⟩ (.value f.expr)
            (Path.this.member f.key) front.length width with depth := ctx₁.below.length }] := by
      rw [kept.deferred, Context.defer, kept₁.deferred]
      rfl
    have depth : ctx₁.below.length = ctx₃.below.length := by
      rw [kept.below]
      rfl
    rw [List.append_assoc] at settled
    rcases patched_or_left cell queue rfl rfl depth f.single (by
        rw [Record.contains, key]; rfl) settled with
      ⟨v', stored, ctx₄, store₄, length, atom, yields, rfl, frame, below, deferred⟩ | frame
    · obtain rfl : v' = v := by
        rw [frame, Record.get?_insert_self] at final
        exact Option.some.inj final
      -- The decisions on the placeholder fall as those on the value, so the same bytes are those of
      -- the value, too.
      obtain ⟨back', ctx', store', left, -, -, -, shows₃⟩ :=
        followers_of_buildFields (after _) unset atom agree fields
      injection left with stream context store
      subst context store
      obtain rfl : back = back' := List.append_cancel_left (Stream.atEnd_inj stream)
      rw [List.length_replicate, ← length] at shows₃
      have outer : ctx₄.pop.top.deferred = [] := by
        rw [Context.pop, below, kept.below, Context.defer, kept₁.below]
        simp [Context.push, Context.ofParams, deferred]
      rw [Engine.resolveSince_of_empty outer] at resolved
      cases resolved
      have others : ∀ k ≠ f.key,
          Record.get? ctx₄.innermost k = Record.get? ctx₃.innermost k := fun k other => by
        rw [frame]
        exact Record.get?_insert_of_ne (Ne.symm other) _ _
      have earlier : ∀ k ∈ fieldNames f.before,
          Record.get? ctx₄.innermost k = Record.get? ctx₁.innermost k := fun k mem =>
        (others k fun eq => fresh' (eq ▸ mem)).trans (same k mem)
      have behind : ∀ k ∈ fieldNames f.followers,
          Record.get? ctx₄.innermost k = Record.get? ctx₃.innermost k := by
        intro k mem
        refine others k ?_
        rintro rfl
        exact fresh mem
      refine ⟨front, stored, back, rfl, ?_, yields (small _ _ final) _ (serves_inner defs), ?_⟩
      · exact (shows₁ (Or.inr fun k mem w found => small k w ((earlier k mem).trans found))).noted
          (by rwa [names_parts])
      · exact (shows₃ fun k mem w found => small k w ((behind k mem).trans found)).noted
          (by rwa [names_parts])
    · rw [frame, key] at final
      exact absurd (Option.some.inj final).symm filled

/-- Where every decision falls on the placeholder as it does on the value that the field has in
the end, what was built is parsed again, with any bytes behind it: the field has this value, so
that the same branches are taken, and the others show what was built. -/
theorem decided_of_buildBytes (f : Deciding defs) (cell : f.stored.Cell defs width)
    (before : ∀ e, ∀ p ∈ parts e defs f.before,
      p.Faithful input Codec.Anywhere Codec.Anywhere)
    (after : ∀ e, ∀ g ∈ f.after, g.Fits e defs input)
    (built : f.format.buildBytes (.ofDefinitions defs) (.container input) params store =
      .ok (.container ws) s)
    (small : (Value.container ws).InRange) (final : Record.get? ws f.key = some v)
    (filled : v ≠ .none) (agree : f.Agree .none v) (params' : Record Value)
    (store' : LazyStore) (rest : List UInt8) :
    ∃ ps s', f.format.parseBytes (.ofDefinitions defs) params' (s.stream.data ++ rest) store' =
        .ok (.container ps) s' ∧ s'.stream.pos = s.stream.data.length ∧
      Record.get? ps f.key = some v ∧
      ∀ k ∈ f.others, Record.isPrivate k = false →
        ∃ w p, Record.get? ws k = some w ∧ Record.get? ps k = some p ∧ w.Covers p := by
  obtain ⟨front, stored, back, left, shows₁, yields, shows₃⟩ :=
    recalls_of_buildBytes cell before after built small final filled agree
  rw [left]
  have start : (⟨.growing, front ++ (stored ++ back) ++ rest, 0⟩ : Medium).pos = 0 := rfl
  obtain ⟨ps, parsed, found, others⟩ :=
    parse_of_recalls shows₁ yields shows₃ start rfl (.ofParams params') store' .this
  exact ⟨ps, _, Run.tagged_of_ok parsed, Nat.zero_add _, found, others⟩

/-- A length in front of what it counts, with a field between the two that is a byte unless the
length is 5. -/
def octet : Deciding [] where
  key := "k"
  stored := .unsigned 1 .big
  expr := .attr (.field "r") "length"
  before := []
  after := [.decision (some "v") (.switch [(.int 5, .pass)] (some (.unsigned 1 .big))),
    .plain (.named "r" (.rawCopy (.unsigned 1 .big)))]
  overwrite := false
  shown := by decide
  single := by decide
  distinct := by decide

private theorem octet_fits (e : Engine) : ∀ g ∈ octet.after,
    g.Fits e [] [("v", .int 7), ("r", .container [("value", .int 9)])] := by
  intro g mem
  simp only [octet, List.mem_cons, List.not_mem_nil, or_false] at mem
  rcases mem with rfl | rfl
  · refine ⟨fun c mem => ?_, fun v f chosen u => ?_⟩
    · obtain rfl := List.mem_singleton.mp mem
      rfl
    · simp only [Decision.choice, Decision.caseFor] at chosen
      split at chosen <;> cases chosen
      · exact Codec.faithful_pass
      · exact Codec.faithful_integer 1 false .big
  · exact ⟨rfl, Codec.faithful_rawCopy (u := .int 9) rfl rfl (Codec.faithful_integer 1 false .big)⟩

/-- The integer that a container holds under a name. -/
def number? (key : String) : Value → Option Int
  | .container ws =>
    match Record.get? ws key with
    | some (.int n) => some n
    | _ => none
  | _ => none

private theorem container_of_number {key : String} {w : Value} {n : Int}
    (h : number? key w = some n) :
    ∃ ws, w = .container ws ∧ Record.get? ws key = some (.int n) := by
  cases w with
  | container ws =>
      refine ⟨ws, rfl, ?_⟩
      simp only [number?] at h
      split at h
      · next found =>
          cases h
          exact found
      · cases h
  | _ => cases h

/-- The length is 1 in the end, which no case is for, and none is for the placeholder. -/
theorem decided_of_buildBytes_octet :
    ∃ ws s, octet.format.buildBytes (.ofDefinitions [])
        (.container [("v", .int 7), ("r", .container [("value", .int 9)])]) [] .empty =
          .ok (.container ws) s ∧ s.stream.data = [1, 7, 9] ∧
      ∃ ps s', octet.format.parseBytes (.ofDefinitions []) [] ([1, 7, 9] ++ [255]) .empty =
          .ok (.container ps) s' ∧ s'.stream.pos = 3 ∧ Record.get? ps "k" = some (.int 1) := by
  have run : Run.yields (octet.format.buildBytes (.ofDefinitions [])
      (.container [("v", .int 7), ("r", .container [("value", .int 9)])]) [] .empty)
      (fun w s => decide w.InRange && decide (s.stream.data = [1, 7, 9]) &&
        decide (number? "k" w = some 1)) = true := by
    decide +kernel
  obtain ⟨w, s, built, checked⟩ := Run.ok_of_yields run
  simp only [Bool.and_eq_true, decide_eq_true_eq] at checked
  obtain ⟨⟨small, data⟩, number⟩ := checked
  obtain ⟨ws, rfl, final⟩ := container_of_number number
  have agree : octet.Agree .none (.int 1) := by
    intro label d mem
    simp only [octet, List.mem_cons, List.not_mem_nil, or_false, reduceCtorEq,
      Follower.decision.injEq] at mem
    obtain ⟨-, rfl⟩ := mem
    rfl
  obtain ⟨ps, s', parsed, pos, found, -⟩ := decided_of_buildBytes octet
    (cell_integer [] false .big (by decide)) (fun _ _ mem => absurd mem List.not_mem_nil)
    octet_fits built small final nofun agree [] .empty [255]
  rw [data] at parsed pos
  exact ⟨ws, s, built, data, ps, s', parsed, pos, found⟩

/-- A length in front of what it counts, with a byte between the two if the length is not zero. -/
def decidedOctet : Format :=
  .struct [.named "k" (.rebuild (.unsigned 1 .big) (.attr (.field "r") "length")),
    .named "v" (.branch (.field "k") (.unsigned 1 .big) .pass),
    .named "r" (.rawCopy (.unsigned 1 .big))] false

/-- The decision is taken on the placeholder, and the length that is patched in afterwards is not
what it saw: the byte between is missing, and what was built is refused when it is parsed. -/
theorem decidedOctet_refused :
    Run.left? (decidedOctet.buildBytes (.ofDefinitions [])
        (.container [("v", .int 7), ("r", .container [("value", .int 9)])]) [] .empty) =
          some ([1, 9], 2) ∧
      Run.left? (decidedOctet.parseBytes (.ofDefinitions []) [] [1, 9] .empty) = none :=
  ⟨by decide +kernel, by decide +kernel⟩

end Deciding

end Format

end BinaryFormat
