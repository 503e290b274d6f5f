import BinaryFormat.Proofs.Nesting
import BinaryFormat.Proofs.FrameDiscipline

/-!
# What a component sees around it

A component of nested structures finds their frames on the stack, the innermost
on top, and those of the caller below: so many steps outward, a name denotes
what the structure there has parsed under it.
-/

namespace BinaryFormat

/-! ## Steps outward -/

namespace Expr

/-- The frame that is so many frames out. -/
def outward : Nat → Expr
  | 0 => .this
  | j + 1 => .attr (outward j) "_"

/-- The frame of the outermost structure. -/
def root : Expr := .attr .this "_root"

variable {r : Resolver} {scope : Scope} {path : Path} {store : LazyStore}

theorem denote_attr_frame {x : Expr} {name : String} {stack : List (Record Value)}
    (base : denote r scope x store = .ok (.frame stack) store) :
    denote r scope (attr x name) store =
      Lookup.ofExcept (Denoted.ofFrame scope.frames stack name) store := by
  simp [denote, member, bind, EStateM.bind, base]

theorem denote_outward : ∀ {j : Nat}, j < scope.frames.length →
    denote r scope (outward j) store = .ok (.frame (scope.frames.drop j)) store
  | 0, _ => rfl
  | j + 1, within => by
      have before := denote_outward (Nat.lt_of_succ_lt within)
      rw [outward, denote_attr_frame before, List.drop_eq_getElem_cons (Nat.lt_of_succ_lt within),
        List.drop_eq_getElem_cons within]
      rfl

end Expr

namespace Engine

variable {s : State} {name : String} {v : Value}

end Engine

/-! ## The frames around a component -/

namespace Leads

variable {e : Engine} {defs : Definitions} {f g : Format} {path place : Path} {s s' : State}

private theorem calm_of_keeps {α : Type} {x : Run α} {a : α}
    (keeps : ∀ base, x.Keeps (Context.Calm .unclaimed base)) (ran : x s = .ok a s') :
    s.context.Calm .unclaimed s'.context :=
  ((keeps s.context).of_ok (Context.Calm.refl _) ran).1

/-- On the way to a component nothing but indices is noted. -/
private theorem calm (he : e.Steady) (h : Leads e defs f path s g place s') :
    s.context.Calm .unclaimed s'.context := by
  have steady (f : Format) : (f.codec e defs).Steady .unclaimed :=
    Format.steady_codec he defs .unclaimed f (Traits.unclaimed_within _)
  induction h with
  | here => exact Context.Calm.refl _
  | named _ ih => exact ih
  | documented _ ih => exact ih
  | @element _ _ _ _ _ _ _ i _ _ _ s₂ _ counted _ before _ ih =>
      have counted := calm_of_keeps (fun _ => e.keeps_evalSize) counted
      have elements := calm_of_keeps (fun _ => Codec.keeps_parseCounted (steady _) id _ _ _) before
      have noted := @calm_of_keeps s₂ _ _ (Codec.noteIndex i) ()
        (fun _ => Run.keeps_calm_note id) rfl
      exact counted.trans (elements.trans (noted.trans ih))
  | branch decided _ ih =>
      exact (calm_of_keeps (fun _ => e.keeps_evalHolds) decided).trans ih
  | prefixed lengthParsed _ overhead _ payload _ ih =>
      have length := calm_of_keeps (fun base => ((steady _).parse _ base).tagged) lengthParsed
      have own := calm_of_keeps (fun _ => Codec.keeps_overhead _ _ _) overhead
      have taken := calm_of_keeps (fun _ => Run.keeps_read) payload
      exact length.trans (own.trans (taken.trans ih))
  | fixedSized sized payload _ ih =>
      have sized := calm_of_keeps (fun _ => e.keeps_evalSize) sized
      have taken := calm_of_keeps (fun _ => Run.keeps_read) payload
      exact sized.trans (taken.trans ih)
  | padded sized _ ih =>
      exact (calm_of_keeps (fun _ => e.keeps_evalSize) sized).trans ih
  | aligned multiple _ ih =>
      exact (calm_of_keeps (fun _ => Codec.keeps_evalModulus _ _) multiple).trans ih

end Leads

/-- The frame shows what a level has parsed under names that it declares once. -/
def Level.ShownBy (level : Level) (frame : Record Value) : Prop :=
  ∀ name v, Record.isPrivate name = false → (Format.declared level.before).count name = 1 →
    (name, v) ∈ level.parsed → Record.get? frame name = some v

/-- A field that has been parsed once under its name. -/
structure Level.Known (level : Level) (name : String) : Prop where
  shown : Record.isPrivate name = false
  own : name ∈ Format.ownNames level.before
  once : (Format.declared level.before).count name = 1

namespace Nest

variable {e : Engine} {defs : Definitions} {f g : Format} {path place : Path}
  {levels : List Level} {s s' : State}

/-- The fields before one are shown by the frame of their structure, and what is below is
what was there before. -/
private theorem entered (he : e.Steady) {fs before : List Format} {overwrite : Bool} {here : Path}
    {parsed : Record Value} {s₁ s₂ : State}
    (outside : Leads e defs f path s (.struct fs overwrite) here s₁)
    (done : Codec.gatherFields overwrite here (Format.parts e defs before)
      { s₁ with context := s₁.context.push [] } = .ok parsed s₂) :
    Level.ShownBy ⟨before, parsed⟩ s₂.context.innermost ∧
      s₂.context.below = s₁.context.top :: s.context.below ∧
      ∀ name, Record.isPrivate name = false →
        Record.get? s₁.context.innermost name = Record.get? s.context.innermost name := by
  have calm := outside.calm he
  have fields := (Codec.keeps_parseFields overwrite false here _
    (Format.steady_unclaimed he defs before)).of_ok (Context.Kept.refl (s₁.context.push []))
      (Codec.parseFields_of_gatherFields done)
  refine ⟨fun name v shown once mem => Format.get?_of_gatherFields he shown done mem once, ?_,
    calm.quiet.shown⟩
  rw [fields.1.below, Context.push, calm.quiet.below]

private theorem frames (he : e.Steady) (h : Nest e defs f path s levels g place s') :
    ∃ shown head, s'.context.frames = shown ++ head :: s.context.below.map Frame.values ∧
      List.Forall₂ Level.ShownBy levels shown ∧
      ∀ name, Record.isPrivate name = false →
        Record.get? head name = Record.get? s.context.innermost name := by
  induction h with
  | @innermost _ _ _ _ _ _ _ _ _ _ s s₁ s₂ s' outside done _ further =>
      obtain ⟨fields, below, around⟩ := entered he outside done
      have calm := further.calm he
      refine ⟨[s'.context.innermost], s₁.context.innermost, ?_, .cons ?_ .nil, around⟩
      · rw [Context.frames, calm.quiet.below, below]
        rfl
      · intro name v shown once mem
        rw [calm.quiet.shown name shown]
        exact fields name v shown once mem
  | @outer _ _ _ _ _ _ _ _ _ _ _ s s₁ s₂ s' outside done _ _ ih =>
      obtain ⟨fields, below, around⟩ := entered he outside done
      obtain ⟨shown, head, frames, alike, same⟩ := ih
      refine ⟨shown ++ [head], s₁.context.innermost, ?_, ?_, around⟩
      · rw [frames, below, List.append_assoc]
        rfl
      · refine List.rel_append alike (.cons ?_ .nil)
        intro name v shown once mem
        rw [same name shown]
        exact fields name v shown once mem

end Nest

end BinaryFormat
