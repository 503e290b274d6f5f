import BinaryFormat.Proofs.DeferredScope
import BinaryFormat.Proofs.Legible

/-!
# The index of the element at hand

An index is an entry of the frame around its repeater, and the nearest one is
that of the element at hand as long as nothing on the way to a component has
noted another.  Which index a component sees is stated by putting another in
its place: one that does the same wherever the index is the right one.
-/

namespace BinaryFormat

/-! ## Runs that agree -/

namespace Run

variable {α β : Type} {P Q : Context → Prop} {x y : Run α}

/-- The runs do the same in every context of a kind. -/
def SameOn (P : Context → Prop) (x y : Run α) : Prop := ∀ s, P s.context → x s = y s

private theorem sameOn_refl : SameOn P x x := fun _ _ => rfl

private theorem SameOn.before (h : SameOn P x y) (f : α → Run β) : SameOn P (x >>= f)
    (y >>= f) := by
  intro s hs
  change EStateM.bind x f s = EStateM.bind y f s
  rw [EStateM.bind, EStateM.bind, h s hs]

private theorem SameOn.after {f g : α → Run β} (keeps : x.Keeps P)
    (next : ∀ a, SameOn P (f a) (g a)) :
    SameOn P (x >>= f) (x >>= g) := by
  intro s hs
  cases ran : x s with
  | ok a s' => rw [bind_of_ok ran, bind_of_ok ran, next a s' (keeps.of_ok hs ran).1]
  | error failure s' => rw [bind_of_error ran, bind_of_error ran]

private theorem sameOn_ite {c : Prop} [Decidable c] {x' y' : Run α} (yes : SameOn P x x')
    (no : SameOn P y y') : SameOn P (if c then x else y) (if c then x' else y') := by
  by_cases h : c
  · rwa [if_pos h, if_pos h]
  · rwa [if_neg h, if_neg h]

private theorem SameOn.tagged (h : SameOn P x y) : SameOn P x.tagged y.tagged := by
  intro s hs
  rw [Run.tagged, Run.tagged, h s hs]

private theorem SameOn.outcome (h : SameOn P x y) : SameOn P x.outcome y.outcome := by
  intro s hs
  rw [Run.outcome, Run.outcome, h s hs]

private theorem SameOn.onStream (h : SameOn P x y) (stream : Stream) :
    SameOn P (x.onStream stream) (y.onStream stream) := by
  intro s hs
  rw [Run.onStream, Run.onStream, h { s with stream := stream } hs]

private theorem SameOn.inFrame {values : Record Value} (h : SameOn Q x y)
    (enter : ∀ ctx, P ctx → Q (ctx.push values)) :
    SameOn P (x.inFrame values) (y.inFrame values) := by
  intro s hs
  rw [Run.inFrame, Run.inFrame, h { s with context := s.context.push values } (enter _ hs)]

end Run

open Run (SameOn)

/-! ## The nearest index -/

namespace Context

variable {index : Option Value} {ctx : Context} {t : Traits}

/-- Whether this is the index that the nearest frame binds. -/
def HasIndex (index : Option Value) (ctx : Context) : Prop := nearestIndex? ctx.frames = index

private theorem hasIndex_insert_index (ctx : Context) (v : Value) :
    HasIndex (some v) (ctx.insert "_index" v) := by
  rw [HasIndex, nearestIndex?, frames, List.findSome?_cons, insert, Record.get?_insert_self]

private theorem HasIndex.insert (h : ctx.HasIndex index) {name : String} (other : name ≠ "_index")
    (v : Value) : (ctx.insert name v).HasIndex index := by
  rw [HasIndex, nearestIndex?, frames, List.findSome?_cons] at h ⊢
  rwa [Context.insert, Record.get?_insert_of_ne other]

private theorem HasIndex.push (h : ctx.HasIndex index) {values : Record Value}
    (unbound : Record.get? values "_index" = none) : (ctx.push values).HasIndex index := by
  rwa [HasIndex, frames_push, nearestIndex?, List.findSome?_cons, unbound]

private theorem HasIndex.of_grows {after : Context} (h : ctx.HasIndex index)
    (grown : ctx.Grows t after)
    (still : t.still) : after.HasIndex index := by
  have same : after.frames = ctx.frames := by
    have here : after.top.values = ctx.top.values := grown.entries still
    rw [frames, frames, here, grown.below]
  rwa [HasIndex, same]

end Context

open Context (HasIndex)

namespace State

variable {s : State} {i : Nat}

/-- `this._index` is the given index, whoever reads it. -/
def SeesIndex (i : Nat) (s : State) : Prop :=
  ∀ (reader : Engine) (path : Path), reader.eval .elementIndex path s = .ok (.ofNat i) s

/-- `this._index` fails, whoever reads it. -/
def SeesNoIndex (s : State) : Prop := ∀ (reader : Engine) (path : Path),
  reader.eval .elementIndex path s = .error ((Fault.unevaluable .noIndex).atPath path) s

private theorem seesIndex_of_hasIndex (h : s.context.HasIndex (some (.ofNat i))) :
    s.SeesIndex i := by
  intro reader path
  refine reader.eval_of_sees fun r path store => ?_
  have found : s.context.frames.findSome? (Record.get? · "_index") = some (.ofNat i) := h
  have frames : s.context.scope.frames = s.context.frames := rfl
  simp [Expr.elementIndex, Expr.evaluate, Expr.denote, Expr.member, Denoted.ofFrame, frames, found,
    Lookup.atPath, Lookup.ofExcept, bind, EStateM.bind, pure, EStateM.pure, Denoted.toValue]

private theorem seesNoIndex_of_hasIndex (h : s.context.HasIndex none) : s.SeesNoIndex := by
  intro reader path
  have found : s.context.frames.findSome? (Record.get? · "_index") = none := h
  have frames : s.context.scope.frames = s.context.frames := rfl
  simp [Engine.eval, Run.lookup, Run.scope, Expr.elementIndex, Expr.evaluate, Expr.denote,
    Expr.member, Denoted.ofFrame, frames, found, Lookup.atPath, Lookup.ofExcept, bind,
    EStateM.bind, throw, throwThe, MonadExceptOf.throw, EStateM.throw]

end State

/-! ## Values that bind no index -/

namespace Value

mutual

/-- No part of the value is lazy or has an entry for an index. -/
def Indexless : Value → Prop
  | list items => IndexlessItems items
  | container fields => IndexlessFields fields
  | flags fields => IndexlessFields fields
  | lazyContainer _ _ => False
  | lazyList _ _ => False
  | _ => True

def IndexlessItems : List Value → Prop
  | [] => True
  | item :: rest => Indexless item ∧ IndexlessItems rest

def IndexlessFields : List (String × Value) → Prop
  | [] => True
  | (name, value) :: rest => name ≠ "_index" ∧ Indexless value ∧ IndexlessFields rest

end

private theorem indexlessFields_iff {fields : List (String × Value)} :
    IndexlessFields fields ↔ ∀ entry ∈ fields, entry.1 ≠ "_index" ∧ entry.2.Indexless := by
  induction fields with
  | nil => simp [IndexlessFields]
  | cons entry rest ih => simp [IndexlessFields, ih, and_assoc]

private theorem IndexlessFields.get? {fields : Record Value} (h : IndexlessFields fields)
    {name : String}
    {v : Value} (found : Record.get? fields name = some v) : v.Indexless :=
  (indexlessFields_iff.mp h (name, v) (Record.mem_of_get?_eq_some found)).2

private theorem IndexlessFields.unbound {fields : Record Value} (h : IndexlessFields fields) :
    Record.get? fields "_index" = Option.none := by
  cases found : Record.get? fields "_index" with
  | none => rfl
  | some v =>
      exact absurd rfl (indexlessFields_iff.mp h ("_index", v) (Record.mem_of_get?_eq_some found)).1

private theorem indexlessItems_ofBytes (data : List UInt8) : IndexlessItems (ofBytes data) := by
  induction data with
  | nil => exact trivial
  | cons b rest ih => exact ⟨trivial, ih⟩

end Value

/-! ## Fields that note no index -/

namespace Format

mutual

/-- Taking over the members notes no index. -/
def Unnoting : Format → Prop
  | named _ of | documented _ of | embedded of => Unnoting of
  | struct fields _ => UnnotingAll fields
  | union _ _ => False
  | _ => True

/-- No index is noted in the frame of the structure that has these fields. -/
def UnnotingAll : List Format → Prop
  | [] => True
  | f :: rest =>
      (if f.isEmbedded then Unnoting f else Still f ∧ f.name? ≠ some "_index") ∧ UnnotingAll rest

end

variable {e : Engine} {index : Option Value}

/-- Of the runs of a component it matters only that no index is noted. -/
def stillness : Traits := ⟨False, False, False, True⟩

private theorem steady_still (he : e.Steady) (defs : Definitions) {f : Format} (still : f.Still) :
    (f.codec e defs).Steady stillness :=
  steady_codec he defs stillness f ⟨False.elim, False.elim, False.elim, fun _ => still⟩

private theorem keeps_index_parse (he : e.Steady) (defs : Definitions) {f : Format}
    (still : f.Still)
    (path : Path) : (Part.parse ⟨f, f.codec e defs⟩ path).Keeps (HasIndex index) := by
  have steady := steady_still he defs still
  exact (Run.keeps_of_start (steady.parse path) Context.Calm.refl
    fun _ _ here calm => here.of_grows calm.grows trivial).tagged

private theorem keeps_index_build (he : e.Steady) (defs : Definitions) {f : Format}
    (still : f.Still)
    (v : Value) (path : Path) :
    (Part.build ⟨f, f.codec e defs⟩ v path).Keeps (HasIndex index) := by
  have steady := steady_still he defs still
  have free (base : Context) : base.Anchors stillness path := by
    rintro (claimed | claimed)
    · exact claimed.elim
    · exact claimed.elim
  exact (Run.keeps_of_start (fun base => steady.build v path base (free base)) Context.Grows.refl
    fun _ _ here grown => here.of_grows grown trivial).tagged

private theorem keeps_index_insert {name : String} (other : name ≠ "_index") (v : Value) :
    (Run.insert name v).Keeps (HasIndex index) :=
  Run.keeps_modify fun _ h => h.insert other v

mutual

theorem keeps_index_parseInline (he : e.Steady) (defs : Definitions) : ∀ f : Format, f.Unnoting →
    ∀ path overwrite, ((f.codec e defs).parseInline path overwrite).Keeps (HasIndex index) := by
  intro f unnoting path overwrite
  cases f with
  | named _ of => exact keeps_index_parseInline he defs of unnoting path overwrite
  | documented _ of => exact keeps_index_parseInline he defs of unnoting path overwrite
  | embedded of => exact keeps_index_parseInline he defs of unnoting path overwrite
  | struct fields _ => exact keeps_index_parseFields he defs fields unnoting overwrite true path
  | union key alternatives => exact unnoting.elim
  | _ => exact Run.keeps_fail

private theorem keeps_index_parseFields (he : e.Steady) (defs : Definitions) : ∀ fs : List Format,
    UnnotingAll fs → ∀ overwrite inlined path,
      (Codec.parseFields overwrite inlined path (parts e defs fs)).Keeps (HasIndex index) := by
  intro fs unnoting overwrite inlined path
  cases fs with
  | nil => exact Run.keeps_pure
  | cons f rest =>
      obtain ⟨here, others⟩ := unnoting
      have later := keeps_index_parseFields he defs rest others overwrite inlined path
      have named : Part.name? ⟨f, f.codec e defs⟩ = f.name? := rfl
      unfold parts Codec.parseFields
      by_cases inline : f.isEmbedded = true
      · simp only [inline, if_true] at here ⊢
        exact .bind (keeps_index_parseInline he defs f here path overwrite) fun _ => later
      · simp only [inline, if_false, Bool.false_eq_true, named] at here ⊢
        cases hn : f.name? with
        | none => exact .bind (keeps_index_parse he defs here.1 path) fun _ => later
        | some name =>
            have other : name ≠ "_index" := fun eq => here.2 (hn.trans (congrArg some eq))
            refine .bind (keeps_index_parse he defs here.1 _) fun v => Run.keeps_ite ?_ ?_
            · exact .bind (.bind Run.keeps_context fun _ =>
                Run.keeps_guard (keeps_index_insert other v)) fun _ => later
            · exact .bind (keeps_index_insert other v) fun _ => later

end

mutual

theorem keeps_index_buildInline (he : e.Steady) (defs : Definitions) : ∀ f : Format, f.Unnoting →
    ∀ input path, ((f.codec e defs).buildInline input path).Keeps (HasIndex index) := by
  intro f unnoting input path
  cases f with
  | named _ of => exact keeps_index_buildInline he defs of unnoting input path
  | documented _ of => exact keeps_index_buildInline he defs of unnoting input path
  | embedded of => exact keeps_index_buildInline he defs of unnoting input path
  | struct fields _ => exact keeps_index_buildFields he defs fields unnoting input path
  | union key alternatives => exact unnoting.elim
  | _ => exact Run.keeps_fail

private theorem keeps_index_buildFields (he : e.Steady) (defs : Definitions) : ∀ fs : List Format,
    UnnotingAll fs → ∀ input path,
      (Codec.buildFields input path (parts e defs fs)).Keeps (HasIndex index) := by
  intro fs unnoting input path
  cases fs with
  | nil => exact Run.keeps_pure
  | cons f rest =>
      obtain ⟨here, others⟩ := unnoting
      have later := keeps_index_buildFields he defs rest others input path
      have named : Part.name? ⟨f, f.codec e defs⟩ = f.name? := rfl
      unfold parts Codec.buildFields
      by_cases inline : f.isEmbedded = true
      · simp only [inline, if_true] at here ⊢
        exact .bind (keeps_index_buildInline he defs f here input path) fun _ => later
      · simp only [inline, if_false, Bool.false_eq_true, named] at here ⊢
        cases hn : f.name? with
        | none => exact .bind (keeps_index_build he defs here.1 _ path) fun _ => later
        | some name =>
            have other : name ≠ "_index" := fun eq => here.2 (hn.trans (congrArg some eq))
            exact .bind (Codec.keeps_fieldInput input _ name _) fun v =>
              .bind (keeps_index_build he defs here.1 v _) fun built =>
                .bind (keeps_index_insert other built) fun _ => later

end

end Format

/-! ## One component in the place of another -/

/-- The paths of a component and of those inside of it. -/
inductive Path.Inside (base : Path) : Path → Prop
  | here : Inside base base
  | member {place : Path} (inside : Inside base place) (name : String) :
      Inside base (place.member name)
  | element {place : Path} (inside : Inside base place) (i : Nat) :
      Inside base (place.element i)

private theorem Path.Inside.memberIf {base place : Path} (h : base.Inside place)
    (name : Option String) :
    base.Inside (place.memberIf name) := by
  cases name with
  | none => exact h
  | some name => exact h.member name

/-- The codecs do the same inside of a component, wherever the nearest index is a given one. -/
structure Codec.Alike (base : Path) (index : Option Value) (c c' : Codec) : Prop where
  parse : ∀ place, base.Inside place →
    SameOn (HasIndex index) (c.parse place) (c'.parse place)
  build : ∀ v place, v.Indexless → base.Inside place →
    SameOn (HasIndex index) (c.build v place) (c'.build v place)

namespace Codec

variable {e : Engine} {base path : Path} {index : Option Value} {c c' : Codec}

private theorem Alike.parseSlice (h : Alike base index c c') (inside : base.Inside path)
    (data : List UInt8) :
    SameOn (HasIndex index) (c.parseSlice data path) (c'.parseSlice data path) :=
  ((h.parse path inside).onStream _).before _

private theorem Alike.buildScratch (h : Alike base index c c') (inside : base.Inside path)
    {v : Value}
    (indexless : v.Indexless) :
    SameOn (HasIndex index) (c.buildScratch v path) (c'.buildScratch v path) :=
  ((h.build v path indexless inside).onStream _).before _

/-! ### Structures -/

variable (defs : Definitions) {field : Format} {before : List Format}

private theorem sameOn_parseFields (he : e.Steady) (h : Alike base index c c')
    (unnoting : Format.UnnotingAll before) (plain : field.isEmbedded = false)
    (inside : base.Inside path) (overwrite inlined : Bool) (rest : List Part) :
    SameOn (HasIndex index)
      (parseFields overwrite inlined path (Format.parts e defs before ++ ⟨field, c⟩ :: rest))
      (parseFields overwrite inlined path (Format.parts e defs before ++ ⟨field, c'⟩ :: rest)) := by
  rw [parseFields_append, parseFields_append]
  refine .after (Format.keeps_index_parseFields he defs before unnoting overwrite inlined path)
    fun _ => ?_
  have name (d : Codec) : Part.name? ⟨field, d⟩ = field.name? := rfl
  rw [parseFields, parseFields]
  simp only [plain, Bool.false_eq_true, if_false, name]
  have alike := (h.parse _ (inside.memberIf field.name?)).tagged
  cases hn : field.name? with
  | none =>
      rw [hn] at alike
      exact alike.before _
  | some name =>
      rw [hn] at alike
      exact alike.before _

private theorem sameOn_buildFields (he : e.Steady) (h : Alike base index c c')
    (unnoting : Format.UnnotingAll before) (plain : field.isEmbedded = false)
    (inside : base.Inside path) {input : Record Value} (indexless : Value.IndexlessFields input)
    (rest : List Part) : SameOn (HasIndex index)
      (buildFields input path (Format.parts e defs before ++ ⟨field, c⟩ :: rest))
      (buildFields input path (Format.parts e defs before ++ ⟨field, c'⟩ :: rest)) := by
  rw [buildFields_append, buildFields_append]
  refine .after (Format.keeps_index_buildFields he defs before unnoting input path) fun _ => ?_
  have name (d : Codec) : Part.name? ⟨field, d⟩ = field.name? := rfl
  rw [buildFields, buildFields]
  simp only [plain, Bool.false_eq_true, if_false, name]
  have alike (v : Value) (h' : v.Indexless) :=
    (h.build v _ h' (inside.memberIf field.name?)).tagged
  cases hn : field.name? with
  | none =>
      rw [hn] at alike
      exact (alike .none trivial).before _
  | some name =>
      rw [hn] at alike
      cases found : Record.get? input name with
      | some v =>
          have taken (d : Codec) :
            fieldInput input ⟨field, d⟩ name (path.member name) = pure v := by
            rw [fieldInput, found]
          simp only [taken]
          exact (alike v (indexless.get? found)).before _
      | none =>
          have taken (d : Codec) : fieldInput input ⟨field, d⟩ name (path.member name) =
              if field.isSelfSupplying then pure .none
              else Run.fail (.missing name) (path.member name) := by
            rw [fieldInput, found]
          simp only [taken]
          by_cases self : field.isSelfSupplying = true
          · simp only [self, if_true]
            exact (alike .none trivial).before _
          · simp only [self]
            exact Run.sameOn_refl

/-- A field sees the index that its structure sees, unless one in front of it notes another. -/
private theorem alike_struct (he : e.Steady) (h : Alike base index c c')
    (unnoting : Format.UnnotingAll before) (plain : field.isEmbedded = false) (overwrite : Bool)
    (rest : List Part) : Alike base index
      (struct e (Format.parts e defs before ++ ⟨field, c⟩ :: rest) overwrite)
      (struct e (Format.parts e defs before ++ ⟨field, c'⟩ :: rest) overwrite) where
  parse place inside := by
    have fields := sameOn_parseFields defs he h unnoting plain inside overwrite false rest
    exact (fields.inFrame fun _ here => here.push rfl).before _
  build v place indexless inside := by
    have fields (input : Record Value) (known : Value.IndexlessFields input) :=
      ((sameOn_buildFields defs he h unnoting plain inside known rest).before fun _ =>
        e.resolvePending).inFrame fun ctx (here : ctx.HasIndex index) => here.push known.unbound
    cases v with
    | container input => exact (fields input indexless).before _
    | flags input => exact (fields input indexless).before _
    | none => exact (fields [] trivial).before _
    | lazyContainer _ _ => exact indexless.elim
    | _ => exact Run.sameOn_refl

/-! ### Branches and envelopes -/

private theorem alike_yes (condition : Expr) (no : Codec) (h : Alike base index c c') :
    Alike base index (branch e condition c no) (branch e condition c' no) where
  parse place inside := .after e.keeps_evalHolds fun _ =>
    Run.sameOn_ite (h.parse place inside) Run.sameOn_refl
  build v place indexless inside := .after e.keeps_evalHolds fun _ =>
    Run.sameOn_ite (h.build v place indexless inside) Run.sameOn_refl

private theorem alike_no (condition : Expr) (yes : Codec) (h : Alike base index c c') :
    Alike base index (branch e condition yes c) (branch e condition yes c') where
  parse place inside := .after e.keeps_evalHolds fun _ =>
    Run.sameOn_ite Run.sameOn_refl (h.parse place inside)
  build v place indexless inside := .after e.keeps_evalHolds fun _ =>
    Run.sameOn_ite Run.sameOn_refl (h.build v place indexless inside)

private theorem alike_prefixed (he : e.Steady) {length : Format} (still : length.Still)
    (h : Alike base index c c') (inclusive lenient : Bool) : Alike base index
      (prefixed ⟨length, length.codec e defs⟩ c inclusive lenient)
      (prefixed ⟨length, length.codec e defs⟩ c' inclusive lenient) where
  parse place inside := by
    refine .after (Format.keeps_index_parse he defs still place) fun stored => ?_
    cases stored.int? with
    | none => exact Run.sameOn_refl
    | some stored =>
        refine .after (keeps_overhead _ inclusive place) fun _ => ?_
        refine Run.sameOn_ite Run.sameOn_refl (.after Run.keeps_read fun data => ?_)
        exact (h.parseSlice inside data).before _
  build _ _ indexless inside :=
    .after (Run.keeps_of_same (fun _ => rfl) fun _ => rfl) fun _ =>
      (h.buildScratch inside indexless).before _

private theorem alike_fixedSized (length : Expr) (h : Alike base index c c') :
    Alike base index (fixedSized e length c) (fixedSized e length c') where
  parse _ inside := .after e.keeps_evalSize fun _ => .after Run.keeps_read fun data =>
    (h.parseSlice inside data).before _
  build _ _ indexless inside := .after e.keeps_evalSize fun _ =>
    .after (Run.keeps_of_same (fun _ => rfl) fun _ => rfl) fun _ =>
      (h.buildScratch inside indexless).before _

private theorem alike_padded (length : Expr) (fill : Fill) (h : Alike base index c c') :
    Alike base index (padded e length c fill) (padded e length c' fill) where
  parse place inside := .after e.keeps_evalSize fun _ => .after Run.keeps_tell fun _ =>
    (h.parse place inside).before _
  build v place indexless inside := .after e.keeps_evalSize fun _ => .after Run.keeps_tell fun _ =>
    (h.build v place indexless inside).before _

private theorem alike_aligned (modulus : Expr) (fill : Fill) (h : Alike base index c c') :
    Alike base index (aligned e modulus c fill) (aligned e modulus c' fill) where
  parse place inside := .after (keeps_evalModulus modulus place) fun _ =>
    .after Run.keeps_tell fun _ => (h.parse place inside).before _
  build v place indexless inside := .after (keeps_evalModulus modulus place) fun _ =>
    .after Run.keeps_tell fun _ => (h.build v place indexless inside).before _

end Codec

/-- A format with another inside of it that no repeater is around, and its meaning when a codec is
put in the place of that one.  No field in front of it notes an index. -/
inductive Hole (e : Engine) (defs : Definitions) (g : Format) : Format → (Codec → Codec) → Prop
  | here : Hole e defs g g id
  | named {of : Format} {K : Codec → Codec} (name : String) (inner : Hole e defs g of K) :
      Hole e defs g (.named name of) K
  | documented {of : Format} {K : Codec → Codec} (docs : String) (inner : Hole e defs g of K) :
      Hole e defs g (.documented docs of) K
  | field {field : Format} {before after : List Format} {K : Codec → Codec} (overwrite : Bool)
      (unnoting : Format.UnnotingAll before) (plain : field.isEmbedded = false)
      (inner : Hole e defs g field K) :
      Hole e defs g (.struct (before ++ field :: after) overwrite) fun c =>
        Codec.struct e (Format.parts e defs before ++ ⟨field, K c⟩ :: Format.parts e defs after)
          overwrite
  | yes {yes no : Format} {K : Codec → Codec} (condition : Expr) (inner : Hole e defs g yes K) :
      Hole e defs g (.branch condition yes no) fun c =>
        Codec.branch e condition (K c) (no.codec e defs)
  | no {yes no : Format} {K : Codec → Codec} (condition : Expr) (inner : Hole e defs g no K) :
      Hole e defs g (.branch condition yes no) fun c =>
        Codec.branch e condition (yes.codec e defs) (K c)
  | prefixed {length of : Format} {K : Codec → Codec} (inclusive lenient : Bool)
      (still : length.Still) (inner : Hole e defs g of K) :
      Hole e defs g (.prefixed length of inclusive lenient) fun c =>
        Codec.prefixed ⟨length, length.codec e defs⟩ (K c) inclusive lenient
  | fixedSized {of : Format} {K : Codec → Codec} (length : Expr) (inner : Hole e defs g of K) :
      Hole e defs g (.fixedSized length of) fun c => Codec.fixedSized e length (K c)
  | padded {of : Format} {K : Codec → Codec} (length : Expr) (fill : Fill)
      (inner : Hole e defs g of K) :
      Hole e defs g (.padded length of fill) fun c => Codec.padded e length (K c) fill
  | aligned {of : Format} {K : Codec → Codec} (modulus : Expr) (fill : Fill)
      (inner : Hole e defs g of K) :
      Hole e defs g (.aligned modulus of fill) fun c => Codec.aligned e modulus (K c) fill

namespace Hole

variable {e : Engine} {defs : Definitions} {f g : Format} {K : Codec → Codec} {c c' : Codec}
  {base : Path} {index : Option Value}

private theorem codec_self (h : Hole e defs g f K) : K (g.codec e defs) = f.codec e defs := by
  induction h with
  | here => rfl
  | named _ _ ih => exact ih
  | documented _ _ ih => exact ih
  | field _ _ _ _ ih => simp only [ih, Format.codec, Format.parts_append, Format.parts]
  | yes _ _ ih => simp only [ih, Format.codec]
  | no _ _ ih => simp only [ih, Format.codec]
  | prefixed _ _ _ _ ih => simp only [ih, Format.codec]
  | fixedSized _ _ ih => simp only [ih, Format.codec]
  | padded _ _ _ ih => simp only [ih, Format.codec]
  | aligned _ _ _ ih => simp only [ih, Format.codec]

/-- A component sees the index that the whole format sees. -/
private theorem alike (he : e.Steady) (h : Hole e defs g f K) (same : Codec.Alike base index c c') :
    Codec.Alike base index (K c) (K c') := by
  induction h with
  | here => exact same
  | named _ _ ih => exact ih
  | documented _ _ ih => exact ih
  | field overwrite unnoting plain _ ih =>
      exact Codec.alike_struct defs he ih unnoting plain overwrite _
  | yes condition _ ih => exact Codec.alike_yes condition _ ih
  | no condition _ ih => exact Codec.alike_no condition _ ih
  | prefixed inclusive lenient still _ ih =>
      exact Codec.alike_prefixed defs he still ih inclusive lenient
  | fixedSized length _ ih => exact Codec.alike_fixedSized length ih
  | padded length fill _ ih => exact Codec.alike_padded length fill ih
  | aligned modulus fill _ ih => exact Codec.alike_aligned modulus fill ih

end Hole

/-! ## Repeaters -/

namespace Codec

variable {e : Engine} {of : Format} {path : Path} {c c' : Codec}

/-- Behind the note of an index only what happens with that index matters. -/
private theorem noteIndex_congr {α : Type} {i : Nat} {x y : Run α}
    (same : SameOn (HasIndex (some (.ofNat i))) x y) :
    (noteIndex i >>= fun _ => x) = (noteIndex i >>= fun _ => y) := by
  funext s
  exact same _ (Context.hasIndex_insert_index s.context (.ofNat i))

/-- The codecs do the same in every element, wherever the nearest index is that of the element. -/
def AlikeInElements (path : Path) (c c' : Codec) : Prop :=
  ∀ i, Alike (path.element i) (some (.ofNat i)) c c'

private theorem AlikeInElements.parse (same : AlikeInElements path c c') (i : Nat) :
    SameOn (HasIndex (some (.ofNat i))) (Part.parse ⟨of, c⟩ (path.element i))
      (Part.parse ⟨of, c'⟩ (path.element i)) := ((same i).parse _ .here).tagged

private theorem AlikeInElements.build (same : AlikeInElements path c c') (i : Nat) {v : Value}
    (indexless : v.Indexless) :
    SameOn (HasIndex (some (.ofNat i))) (Part.build ⟨of, c⟩ v (path.element i))
      (Part.build ⟨of, c'⟩ v (path.element i)) := ((same i).build v _ indexless .here).tagged

private theorem listInput_congr {α : Type} {v : Value} (indexless : v.Indexless)
    {next next' : List Value → Run α}
    (each : ∀ items, Value.IndexlessItems items → next items = next' items) :
    (e.listInput v path >>= next) = (e.listInput v path >>= next') := by
  cases v with
  | list items => exact each items indexless
  | bytes data => exact each _ (Value.indexlessItems_ofBytes data)
  | lazyList _ _ => exact indexless.elim
  | _ => rfl

variable (same : AlikeInElements path c c')

include same

private theorem parseCounted_congr : ∀ count i : Nat,
    parseCounted ⟨of, c⟩ path count i = parseCounted ⟨of, c'⟩ path count i
  | 0, _ => rfl
  | count + 1, i => by
      rw [parseCounted, parseCounted, parseCounted_congr count (i + 1)]
      exact noteIndex_congr ((same.parse i).before _)

private theorem parseGreedy_congr : ∀ most i : Nat,
    parseGreedy ⟨of, c⟩ path most i = parseGreedy ⟨of, c'⟩ path most i
  | 0, _ => rfl
  | most + 1, i => by
      rw [parseGreedy, parseGreedy, parseGreedy_congr most (i + 1)]
      refine congrArg (Run.tell >>= ·) (funext fun start => ?_)
      exact noteIndex_congr ((same.parse i).outcome.before _)

private theorem parseUntil_congr (last : Expr) : ∀ (more i : Nat) (items : List Value),
    parseUntil e last ⟨of, c⟩ path more i items = parseUntil e last ⟨of, c'⟩ path more i items
  | 0, _, _ => rfl
  | more + 1, i, items => by
      rw [parseUntil, parseUntil]
      have later := parseUntil_congr last more (i + 1)
      simp only [later]
      exact noteIndex_congr ((same.parse i).before _)

private theorem buildElements_congr : ∀ (i : Nat) (items : List Value), Value.IndexlessItems items →
    buildElements ⟨of, c⟩ path i items = buildElements ⟨of, c'⟩ path i items
  | _, [], _ => rfl
  | i, v :: rest, ⟨first, others⟩ => by
      rw [buildElements, buildElements, buildElements_congr (i + 1) rest others]
      exact noteIndex_congr ((same.build i first).before _)

private theorem buildUntil_congr (last : Expr) : ∀ (i : Nat) (items done : List Value),
    Value.IndexlessItems items →
      buildUntil e last ⟨of, c⟩ path i items done = buildUntil e last ⟨of, c'⟩ path i items done
  | _, [], _, _ => rfl
  | i, v :: rest, done, ⟨first, others⟩ => by
      rw [buildUntil, buildUntil]
      have later (done : List Value) := buildUntil_congr last (i + 1) rest done others
      simp only [later]
      exact noteIndex_congr ((same.build i first).before _)

private theorem parseRange_congr (least : Expr) (most : Option Expr) (discard : Bool) :
    parseRange e least most ⟨of, c⟩ discard path =
      parseRange e least most ⟨of, c'⟩ discard path := by
  simp only [parseRange, parseGreedy_congr same]

end Codec

/-- The codecs do the same inside of a path, in the states of a kind. -/
def Codec.SameWithin (base : Path) (P : State → Prop) (c c' : Codec) : Prop :=
  ∀ place s, base.Inside place → P s →
    c.parse place s = c'.parse place s ∧ ∀ v, c.build v place s = c'.build v place s

/-- The index of the outermost element that the path leads through. -/
def Path.outermostIndex : Path → Nat
  | root _ => 0
  | member outer _ => outer.outermostIndex
  | element (root _) i => i
  | element outer _ => outer.outermostIndex

private theorem Path.Inside.outermostIndex {label : String} {i : Nat} {place : Path}
    (h : ((Path.root label).element i).Inside place) : place.outermostIndex = i := by
  induction h with
  | here => rfl
  | member _ _ ih => exact ih
  | @element place inside j ih =>
      cases place with
      | root _ => cases inside
      | member _ _ => exact ih
      | element _ _ => exact ih

/-- Shows the index of the outermost element. -/
def Codec.ofPath : Codec where
  parse place := return .ofNat place.outermostIndex
  build _ place := return .ofNat place.outermostIndex
  size _ _ := return 0

/-- Refuses to run for want of an index. -/
def Codec.refusing : Codec where
  parse place := Run.fail (.unevaluable .noIndex) place
  build _ place := Run.fail (.unevaluable .noIndex) place
  size _ _ := return 0

namespace Format

variable {e : Engine} {defs : Definitions} {f of g : Format} {K : Codec → Codec} {c c' : Codec}
  {path : Path}

/-- The meaning of a repeater with a codec in the place of that of its elements. -/
def repeating (e : Engine) (defs : Definitions) (c : Codec) : Format → Codec
  | array count of discard => Codec.array e count ⟨of, c⟩ discard
  | range least most of discard => Codec.range e least most ⟨of, c⟩ discard
  | greedyRange of discard => Codec.greedyRange e ⟨of, c⟩ discard
  | repeatUntil last of discard => Codec.repeatUntil e last ⟨of, c⟩ discard
  | prefixedArray count of => Codec.prefixedArray e ⟨count, codec e defs count⟩ ⟨of, c⟩
  | f => codec e defs f

private theorem repeating_self (repeats : Repeats of f) :
    repeating e defs (of.codec e defs) f = f.codec e defs := by
  cases f with
  | array _ f _ => obtain rfl : f = of := repeats; rfl
  | range _ _ f _ => obtain rfl : f = of := repeats; rfl
  | greedyRange f _ => obtain rfl : f = of := repeats; rfl
  | repeatUntil _ f _ => obtain rfl : f = of := repeats; rfl
  | prefixedArray _ f => obtain rfl : f = of := repeats; rfl
  | _ => exact repeats.elim

private theorem parse_repeating_congr (same : Codec.AlikeInElements path c c') :
    (repeating e defs c f).parse path = (repeating e defs c' f).parse path := by
  cases f with
  | array count of discard =>
      simp only [repeating, Codec.array, Codec.parseCounted_congr same]
  | range least most of discard => exact Codec.parseRange_congr same _ _ discard
  | greedyRange of discard => exact Codec.parseRange_congr same _ _ discard
  | repeatUntil last of discard =>
      simp only [repeating, Codec.repeatUntil, Codec.parseUntil_congr same]
  | prefixedArray count of =>
      simp only [repeating, Codec.prefixedArray, Codec.parseCounted_congr same]
  | _ => rfl

private theorem build_repeating_congr (same : Codec.AlikeInElements path c c') {v : Value}
    (indexless : v.Indexless) :
    (repeating e defs c f).build v path = (repeating e defs c' f).build v path := by
  have range (least : Expr) (most : Option Expr) (of : Format) :
      Codec.buildRange e least most ⟨of, c⟩ v path =
        Codec.buildRange e least most ⟨of, c'⟩ v path := by
    refine congrArg (Codec.bounds e least most path >>= ·) (funext fun limits => ?_)
    refine Codec.listInput_congr indexless fun items each => ?_
    rw [Codec.buildElements_congr same 0 items each]
  cases f with
  | array count of discard =>
      refine congrArg (e.evalSize count path >>= ·) (funext fun n => ?_)
      refine Codec.listInput_congr indexless fun items each => ?_
      rw [Codec.buildElements_congr same 0 items each]
  | range least most of discard => exact range _ _ of
  | greedyRange of discard => exact range _ _ of
  | repeatUntil last of discard =>
      refine Codec.listInput_congr indexless fun items each => ?_
      rw [Codec.buildUntil_congr same last 0 items [] each]
  | prefixedArray count of =>
      refine Codec.listInput_congr indexless fun items each => ?_
      rw [Codec.buildElements_congr same 0 items each]
  | _ => rfl

private theorem alikeInElements_of_hole (he : e.Steady) (hole : Hole e defs g of K)
    (same : ∀ i, Codec.SameWithin (path.element i) (State.SeesIndex i) (g.codec e defs) c) :
    Codec.AlikeInElements path (of.codec e defs) (K c) := by
  intro i
  rw [← hole.codec_self]
  refine hole.alike he ⟨fun place inside s here => ?_, fun v place _ inside s here => ?_⟩
  · exact (same i place s inside (State.seesIndex_of_hasIndex here)).1
  · exact (same i place s inside (State.seesIndex_of_hasIndex here)).2 v

private theorem alike_of_hole (he : e.Steady) (hole : Hole e defs g f K)
    (same : Codec.SameWithin path State.SeesNoIndex (g.codec e defs) c) :
    Codec.Alike path none (f.codec e defs) (K c) := by
  rw [← hole.codec_self]
  refine hole.alike he ⟨fun place inside s here => ?_, fun v place _ inside s here => ?_⟩
  · exact (same place s inside (State.seesNoIndex_of_hasIndex here)).1
  · exact (same place s inside (State.seesNoIndex_of_hasIndex here)).2 v

/-- A component of an element sees the index of the element: a codec that does the same wherever
`this._index` is that index may take its place.  A component that no repeater is around sees
none: a codec that does the same wherever `this._index` fails may take its place. -/
theorem sees_element_index (defs : Definitions) (n : Nat) (path : Path) :
    (∀ {f of g : Format} {K : Codec → Codec} {c : Codec}, Repeats of f →
      Hole (.level defs n) defs g of K →
      (∀ i, Codec.SameWithin (path.element i) (State.SeesIndex i)
        (g.codec (.level defs n) defs) c) →
      (f.codec (.level defs n) defs).parse path =
          (repeating (.level defs n) defs (K c) f).parse path ∧
        ∀ v : Value, v.Indexless → (f.codec (.level defs n) defs).build v path =
          (repeating (.level defs n) defs (K c) f).build v path) ∧
    (∀ {f g : Format} {K : Codec → Codec} {c : Codec} {params : Record Value},
      Hole (.level defs n) defs g f K → Record.get? params "_index" = none →
      Codec.SameWithin path State.SeesNoIndex (g.codec (.level defs n) defs) c →
      ∀ stream store, (f.codec (.level defs n) defs).parse path ⟨stream, .ofParams params, store⟩ =
          (K c).parse path ⟨stream, .ofParams params, store⟩ ∧
        ∀ v : Value, v.Indexless →
          (f.codec (.level defs n) defs).build v path ⟨stream, .ofParams params, store⟩ =
            (K c).build v path ⟨stream, .ofParams params, store⟩) := by
  have steady := Engine.steady_level defs n
  refine ⟨fun repeats hole same => ?_, fun {f g K c params} hole unbound same => ?_⟩
  · have elements := alikeInElements_of_hole steady hole same
    rw [← repeating_self repeats]
    exact ⟨parse_repeating_congr elements,
      fun v indexless => build_repeating_congr elements indexless⟩
  · have outside : (Context.ofParams params).HasIndex none := by
      simp [HasIndex, Context.nearestIndex?, Context.frames, Context.ofParams, unbound]
    have alike := alike_of_hole steady hole same
    exact fun stream store => ⟨alike.parse path .here _ outside,
      fun v indexless => alike.build v path indexless .here _ outside⟩

/-- A number and the index at hand. -/
def indexedOctet : Format :=
  .struct ([.named "a" (.unsigned 1 .big)] ++ [.named "i" (.computed .elementIndex)]) false

/-- What the elements of a list have under `i`. -/
def shownIndices : Value → List (Option Int)
  | .list items => items.map fun item =>
      match item with
      | .container fields => (Record.get? fields "i").bind Value.int?
      | _ => none
  | _ => []

private theorem hole_indexedOctet (e : Engine) : Hole e []
    (.computed .elementIndex) indexedOctet fun c =>
    Codec.struct e (parts e [] [.named "a" (.unsigned 1 .big)] ++
      [⟨.named "i" (.computed .elementIndex), c⟩]) false :=
  .field false ⟨⟨trivial, by decide⟩, trivial⟩ rfl (.named "i" .here)

/-- Two of them show the indices of their elements, and one alone fails. -/
theorem sees_element_index_octets :
    Run.yields (((array (.const (.int 2)) indexedOctet false).codec (.level [] 0) []).parse .this
        ⟨.memory [7, 8], .ofParams [], .empty⟩)
        (fun v _ => decide (shownIndices v = [some 0, some 1])) = true ∧
      (indexedOctet.codec (.level [] 0) []).parse .this ⟨.memory [7], .ofParams [], .empty⟩ =
        .error (((Fault.unevaluable .noIndex).atPath (Path.this.member "i")).withOffset 1)
          ⟨.medium ⟨.growing, [7], 1⟩, .ofParams [], .empty⟩ := by
  obtain ⟨elements, alone⟩ := sees_element_index [] 0 .this
  have hole := hole_indexedOctet (.level [] 0)
  -- In the place of the field stands one that reads the index off its path, or one that fails.
  have indexed : ∀ i, Codec.SameWithin (Path.this.element i) (State.SeesIndex i)
      ((computed .elementIndex).codec (.level [] 0) []) .ofPath := by
    intro i place s inside seen
    have same := seen (.level [] 0) place
    rw [← inside.outermostIndex] at same
    exact ⟨same, fun _ => same⟩
  have failing : Codec.SameWithin .this State.SeesNoIndex
      ((computed .elementIndex).codec (.level [] 0) []) .refusing :=
    fun place s _ seen => ⟨seen _ place, fun _ => seen _ place⟩
  have repeats : Repeats indexedOctet (array (.const (.int 2)) indexedOctet false) := rfl
  have unbound : Record.get? ([] : Record Value) "_index" = none := rfl
  rw [(elements repeats hole indexed).1, (alone hole unbound failing (.memory [7]) .empty).1]
  exact ⟨by decide +kernel, rfl⟩

/-- Octets and the index at hand. -/
def indexedOctets (count : Int) : Format :=
  .struct [.named "xs" (.array (.const (.int count)) (.unsigned 1 .big) false),
    .named "i" (.computed .elementIndex)] false

/-- Behind a repeater in the same structure the index is that of its last element, within an
element of another one as well as outside of all. -/
theorem shown_behind_octets :
    Run.yields (((array (.const (.int 1)) (indexedOctets 3) false).codec (.level [] 0) []).parse
        .this ⟨.memory [1, 2, 3], .ofParams [], .empty⟩)
        (fun v _ => decide (shownIndices v = [some 2])) = true ∧
      Run.yields (((indexedOctets 2).codec (.level [] 0) []).parse .this
        ⟨.memory [1, 2], .ofParams [], .empty⟩)
        (fun v _ => decide (shownIndices (.list [v]) = [some 1])) = true :=
  ⟨by decide +kernel, by decide +kernel⟩

end Format

end BinaryFormat
