import BinaryFormat.Proofs.BackPatching.Pending

/-!
# Inside and outside of a layer

How building a layer comes to the component in it, and what is left when the component, and then
the layer, has been built: once with a patch that waits, and once with its value in place.
-/

namespace BinaryFormat

/-! ## Coming to the component -/

namespace Codec

/-- What a field is built from, or nothing if it has no name. -/
def inputOf (input : Record Value) (field : Part) (path : Path) : Run Value :=
  match field.name? with
  | some name => fieldInput input field name (path.member name)
  | none => return .none

end Codec

namespace Layer

open Format (parts)

/-- While the layer around the component is built, control comes to the component, with this
input and in this state.  A choice comes to an alternative only if that can be built. -/
inductive Enters (e : Engine) (defs : Definitions) (f : Format) :
    Layer → Value → Path → State → Value → State → Prop
  | named {name : String} {w : Value} {path : Path} {s : State} :
      Enters e defs f (.named name) w path s w s
  | documented {docs : String} {w : Value} {path : Path} {s : State} :
      Enters e defs f (.documented docs) w path s w s
  | struct {before after : List Format} {overwrite : Bool} {input : Record Value} {u w : Value}
      {path : Path} {s s₁ s₂ : State} (given : e.containerInput w path s = .ok input s₁)
      (done : Codec.buildFields input path (parts e defs before)
        { s₁ with context := s₁.context.push input } = .ok () s₂)
      (supplied : Codec.inputOf input ⟨f, f.codec e defs⟩ path s₂ = .ok u s₂) :
      Enters e defs f (.struct before after overwrite) w path s u s₂
  | items {layer : Layer} {front back : List (Part × Value)} {frame : Record Value}
      {values : List Value} {u w : Value} {path : Path} {s s₁ s₂ : State}
      (listed : Items e defs (layer.around f) w path s (front ++ (⟨f, f.codec e defs⟩, u) :: back)
        frame s₁)
      (place : layer.position = front.length)
      (done : Codec.buildItems path 0 front { s₁ with context := s₁.context.push frame } =
        .ok values s₂) :
      Enters e defs f layer w path s u s₂
  | selectNamed {before after : List Format} {u w b : Value} {path : Path} {s s₁ : State}
      (other : Codec.namedAlternative? (parts e defs before) w = none)
      (chosen : Codec.namedAlternative? [⟨f, f.codec e defs⟩] w = some (⟨f, f.codec e defs⟩, u))
      (fits : (f.codec e defs).build u path { s with stream := .memory [] } = .ok b s₁) :
      Enters e defs f (.select before after true) w path s u { s with stream := .memory [] }
  | selectFirst {before after : List Format} {tagged : Bool} {w b : Value} {path : Path}
      {s s₁ : State} {store : LazyStore}
      (unnamed : tagged = true →
        Codec.namedAlternative? (parts e defs (before ++ f :: after)) w = none)
      (refused : Codec.firstBuilt tagged w path s (parts e defs before) s.store =
        .impossible store)
      (fits : (f.codec e defs).build w path ⟨.memory [], s.context, store⟩ = .ok b s₁) :
      Enters e defs f (.select before after tagged) w path s w ⟨.memory [], s.context, store⟩
  | prefixed {length : Format} {inclusive lenient : Bool} {w : Value} {path : Path} {s : State} :
      Enters e defs f (.prefixed length inclusive lenient) w path s w
        { s with stream := .memory [] }
  | fixedSized {length : Expr} {n : Nat} {w : Value} {path : Path} {s s₁ : State}
      (sized : e.evalSize length path s = .ok n s₁) :
      Enters e defs f (.fixedSized length) w path s w { s₁ with stream := .memory [] }
  | padded {length : Expr} {fill : Fill} {n : Nat} {w : Value} {path : Path} {s s₁ : State}
      (sized : e.evalSize length path s = .ok n s₁) :
      Enters e defs f (.padded length fill) w path s w s₁
  | aligned {modulus : Expr} {fill : Fill} {n : Nat} {w : Value} {path : Path} {s s₁ : State}
      (multiple : Codec.evalModulus e modulus path s = .ok n s₁) :
      Enters e defs f (.aligned modulus fill) w path s w s₁
  | rawCopy {input : Record Value} {u w : Value} {path : Path} {s s₁ : State}
      (given : e.containerInput w path s = .ok input s₁)
      (value : Record.get? input "value" = some u) (present : u.isNone = false) :
      Enters e defs f .rawCopy w path s u s₁

/-- The members of the layer have been built, in a frame of their own, and leave this state; what
waits there is resolved next. -/
inductive Gathers (e : Engine) (defs : Definitions) (f : Format) :
    Layer → Value → Path → State → State → Prop
  | struct {before after : List Format} {overwrite : Bool} {input : Record Value} {w : Value}
      {path : Path} {s s₁ s₂ : State} (given : e.containerInput w path s = .ok input s₁)
      (done : Codec.buildFields input path (parts e defs (before ++ f :: after))
        { s₁ with context := s₁.context.push input } = .ok () s₂) :
      Gathers e defs f (.struct before after overwrite) w path s s₂
  | items {layer : Layer} {pairs : List (Part × Value)} {frame : Record Value}
      {values : List Value} {w : Value} {path : Path} {s s₁ s₂ : State}
      (listed : Items e defs (layer.around f) w path s pairs frame s₁)
      (done : Codec.buildItems path 0 pairs { s₁ with context := s₁.context.push frame } =
        .ok values s₂) :
      Gathers e defs f layer w path s s₂

/-- When the members of the layer have been built, one patch waits there, and this is its
value. -/
def Computes (e : Engine) (defs : Definitions) (f : Format) (layer : Layer) (w : Value)
    (path : Path) (s : State) (v : Value) : Prop :=
  ∃ s₁ d store, layer.Gathers e defs f w path s s₁ ∧ s₁.context.top.deferred = [d] ∧
    d.patch.compute e.resolver (s₁.context.scopeOf d) d.path s₁.store = .ok v store

end Layer

/-- While these layers around a field that is computed are built, the field is deferred, and its
patch is applied with this value where the members of one of the layers have been built. -/
inductive Format.PatchedWith (e : Engine) (defs : Definitions) (of : Format) (p : Patch)
    (v : Value) : List Layer → Value → Path → State → Prop
  | inside {layer : Layer} {layers : List Layer} {u w : Value} {path : Path} {s s₁ : State}
      (entered : layer.Enters e defs (within layers (of.computedBy p)) w path s u s₁)
      (further : PatchedWith e defs of p v layers u (layer.place (labelOf layers) path) s₁) :
      PatchedWith e defs of p v (layer :: layers) w path s
  | here {layer : Layer} {layers : List Layer} {w : Value} {path : Path} {s : State}
      (computed : layer.Computes e defs (within layers (of.computedBy p)) w path s v) :
      PatchedWith e defs of p v (layer :: layers) w path s

/-! ## What is left -/

/-- The stream grows, nothing waits in the innermost frame, and no frame has a lazy part. -/
structure State.Calm (s : State) : Prop where
  growing : ∃ data pos, s.stream = .growing data pos
  idle : s.context.top.deferred = []
  eager : EagerFrames s.context.frames

theorem State.Calm.scratch {s : State} (h : s.Calm) : State.Calm { s with stream := .memory [] } :=
  ⟨⟨[], 0, rfl⟩, h.idle, h.eager⟩

theorem State.Calm.alone {s : State} (h : s.Calm) :
    s.Abreast 0 [] (Context.These s.context s.context) s := by
  obtain ⟨data, pos, growing⟩ := h.growing
  exact ⟨by rw [growing]; exact Stream.replaced_self data pos, ⟨rfl, rfl⟩, rfl⟩

theorem State.Calm.of_keeps {α : Type} {x : Run α} {s s' : State} {a : α} (h : s.Calm)
    (keeps : x.Keeps (· = s.context)) (run : x s = .ok a s') :
    s'.Calm ∧ s'.context = s.context := by
  obtain ⟨same, alike⟩ := keeps.of_ok rfl run
  obtain ⟨data, pos, growing⟩ := h.growing
  rw [growing] at alike
  exact ⟨⟨Stream.growing_of_alike alike, by rw [same]; exact h.idle, by rw [same]; exact h.eager⟩,
    same⟩

section

variable (of : Format) (width : Nat) (p : Patch) (stored : List UInt8) (layers : List Layer)
  (path : Path)

/-- The patch of a field in these layers. -/
structure Deferred.Waits (d : Deferred) : Prop where
  field : d.field = of
  patch : d.patch = p
  size : d.size = width
  path : d.path = Format.pathIn layers path
  /-- A patch that has left no frame is of a field that is in none. -/
  inner : d.scopes = [] → layers.any Layer.isFrame = false
  eager : EagerFrames d.scopes

/-- The patches that wait in one run, and what stands in their place in the other one. -/
inductive Outstanding : List Deferred → Nat → List UInt8 → Prop
  | nothing : Outstanding [] 0 []
  | patch {d : Deferred} (waits : d.Waits of width p layers path) :
      Outstanding [d] d.offset stored

/-- Over this context the runs of the layers have come to the same, up to what is outstanding. -/
def State.Met (ctx : Context) (s t : State) : Prop :=
  ∃ queue offset bytes, Outstanding of width p stored layers path queue offset bytes ∧
    s.Abreast offset bytes (Context.These (ctx.withDeferred queue) ctx) t

/-- What these layers around a field are built to, by the one run and by the other. -/
structure State.Alongside (ctx : Context) (b b' : Value) (s t : State) : Prop where
  eager : b.Eager
  alike : Format.Alike layers path b b'
  met : s.Met of width p stored layers path ctx t

end

end BinaryFormat
