import BinaryFormat.Proofs.BackPatching.Listed

/-!
# Through any layer

Whatever the layer is, the patch of a component in it is carried along, or applied where the layer
ends; and what a layer computes is determined.
-/

namespace BinaryFormat

open Format (labelOf within parts NestedAll Unread)

variable {e : Engine} {defs : Definitions} {of : Format} {width : Nat} {p : Patch} {v : Value}
  {stored : List UInt8} {layers : List Layer} {layer : Layer} {f g : Format} {path : Path}
  {s s' : State} {w b : Value}

/-! ## Alternatives that fail leave no trace -/

namespace Format

mutual

private theorem still_of_nested : ∀ {f : Format}, f.Nested → f.Still
  | integer _ _ _, _ | bytes _, _ => trivial
  | constant of _, h => still_of_nested (f := of) h.1
  | named _ of, h | documented _ of, h | rawCopy of, h | fixedSized _ of, h | padded _ of _, h
  | aligned _ of _, h => still_of_nested (f := of) h
  | prefixed _ _ _ _, h => ⟨still_of_nested h.1, still_of_nested h.2⟩
  | select fs _, h => stillOf_of_nestedAll (show NestedAll fs from h)
  | struct _ _, _ | sequence _, _ | focused _ _, _ => trivial

private theorem stillOf_of_nestedAll : ∀ {fs : List Format}, NestedAll fs → StillOf fs
  | [], _ => trivial
  | _ :: _, h => ⟨still_of_nested h.1, stillOf_of_nestedAll h.2⟩

end

private theorem stillOf_append {fs gs : List Format} (h : StillOf fs) (h' : StillOf gs) :
    StillOf (fs ++ gs) := by
  induction fs with
  | nil => exact h'
  | cons f fs ih => exact ⟨h.1, ih h.2⟩

theorem still_within (e : Engine) {f : Format} (still : f.Still) :
    ∀ {layers : List Layer} {path : Path}, Unread e layers path → (within layers f).Still
  | [], _, _ => still
  | layer :: layers, path, h => by
      have inner := still_within e still h.2
      cases layer with
      | struct | sequence | focused => trivial
      | named | documented | fixedSized | padded | aligned | rawCopy => exact inner
      | prefixed => exact ⟨still_of_nested h.1, inner⟩
      | select =>
          exact stillOf_append (stillOf_of_nestedAll h.1.1) ⟨inner, stillOf_of_nestedAll h.1.2⟩

private theorem steady_of_still (he : e.Steady) (defs : Definitions) {f : Format}
    (still : f.Still) :
    (f.codec e defs).Steady ⟨False, False, False, True⟩ :=
  steady_codec he defs _ f ⟨False.elim, False.elim, False.elim, fun _ => still⟩

end Format

namespace Layer

private theorem steady_alternatives (he : e.Steady) (still : f.Still) {before after : List Format}
    (ahead : NestedAll before) (behind : NestedAll after) :
    ∀ q ∈ parts e defs (before ++ f :: after), q.codec.Steady ⟨False, False, False, True⟩ :=
  Format.steady_parts he defs _ _ ⟨False.elim, False.elim, False.elim, fun _ =>
    Format.stillOf_append (Format.stillOf_of_nestedAll ahead)
      ⟨still, Format.stillOf_of_nestedAll behind⟩⟩

/-- Every layer carries the patch along or applies it. -/
theorem carries (he : e.Steady) (means : e.Means defs) (quiet : p.Quiet e)
    (cell : of.Patchable width) (writes : of.Writes defs v stored) (facade : Format.Facade f g)
    (label : f.name? = labelOf layers) (flat : f.isEmbedded = false) (still : f.Still)
    (still' : g.Still) (unread : Unread e (layer :: layers) path) :
    layer.Carries e defs of width p v stored layers path f g := by
  have steady := Format.steady_of_still he defs still
  cases layer with
  | named name => exact (passes_named name).carries rfl
  | documented docs => exact (passes_documented docs).carries rfl
  | struct before after overwrite =>
      obtain ⟨ahead, behind, unseen⟩ := unread.1
      exact carries_struct overwrite means quiet cell writes facade label flat steady ahead behind
        unseen
  | sequence before after =>
      obtain ⟨ahead, behind, unseen⟩ := unread.1
      exact carries_sequence means quiet cell writes facade label steady ahead behind unseen
  | focused focus before after =>
      obtain ⟨ahead, behind, unseen⟩ := unread.1
      exact carries_focused focus means quiet cell writes facade label steady ahead behind unseen
  | select before after tagged =>
      obtain ⟨ahead, behind⟩ := unread.1
      exact (passes_select tagged facade.name (steady_alternatives he still ahead behind)
        (steady_alternatives he still' ahead behind)).carries rfl
  | prefixed length inclusive lenient =>
      exact (passes_prefixed unread.1 inclusive lenient).carries rfl
  | fixedSized length => exact (passes_fixedSized length).carries rfl
  | padded length fill => exact (passes_padded length fill).carries rfl
  | aligned modulus fill => exact (passes_aligned modulus fill).carries rfl
  | rawCopy => exact passes_rawCopy.carries rfl

/-- A layer comes to its component, or it has no frame and nothing waits behind it. -/
theorem enters (he : e.Steady) (flat : f.isEmbedded = false) (still : f.Still)
    (unread : Unread e (layer :: layers) path) (calm : s.Calm) (eager : w.Eager)
    (run : ((layer.around f).codec e defs).build w path s = .ok b s') :
    (∃ u s₁, layer.Enters e defs f w path s u s₁) ∨
      layer.isFrame = false ∧ s'.context = s.context := by
  cases framed : layer.isFrame with
  | true =>
      refine .inl ?_
      cases layer with
      | struct before after overwrite => exact enters_struct overwrite flat run
      | sequence before after => exact enters_sequence run
      | focused focus before after => exact enters_focused focus run
      | _ => cases framed
  | false =>
      refine (enters_of_run framed (Format.steady_of_still he defs still) ?_ calm eager
        run).imp_right fun same => ⟨rfl, same⟩
      rintro before after tagged rfl
      exact ⟨unread.1.1, unread.1.2, steady_alternatives he still unread.1.1 unread.1.2⟩

theorem Computes.unique {v v' : Value} (h : layer.Computes e defs f w path s v)
    (h' : layer.Computes e defs f w path s v') : v' = v := by
  obtain ⟨s₁, d, store, gathered, waits, computed⟩ := h
  obtain ⟨s₁', d', store', gathered', waits', computed'⟩ := h'
  obtain rfl : s₁' = s₁ := by
    cases gathered with
    | struct given done =>
        cases gathered' with
        | items listed => cases listed
        | struct given' done' =>
            cases given.symm.trans given'
            cases done.symm.trans done'
            rfl
    | items listed done =>
        cases gathered' with
        | struct => cases listed
        | items listed' done' =>
            obtain ⟨rfl, rfl, rfl⟩ := listed.unique listed'
            cases done.symm.trans done'
            rfl
  rw [waits] at waits'
  cases waits'
  rw [computed] at computed'
  cases computed'
  rfl

end Layer

end BinaryFormat
