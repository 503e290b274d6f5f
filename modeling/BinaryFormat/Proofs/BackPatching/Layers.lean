import BinaryFormat.Proofs.RawCopies
import BinaryFormat.Proofs.BackPatching.Unread
import BinaryFormat.Proofs.Filling.Patches
import BinaryFormat.Proofs.Filling.Formats

/-!
# Layers around a field

A format of which one field is left open is the list of the layers around that field, the
outermost first.  Two values that are built with other things in the field differ in what stands
there, in a raw copy of it, and in the entry that a patch is noted under.
-/

namespace BinaryFormat

/-- What stands around a component: a label, a structure or a choice with its other members, or
an envelope. -/
inductive Layer where
  | named (name : String)
  | documented (docs : String)
  | struct (before after : List Format) (overwrite : Bool)
  | sequence (before after : List Format)
  | focused (focus : Selector) (before after : List Format)
  | select (before after : List Format) (tagged : Bool)
  /-- The payload behind a length. -/
  | prefixed (length : Format) (inclusive lenient : Bool)
  | fixedSized (length : Expr)
  | padded (length : Expr) (fill : Fill)
  | aligned (modulus : Expr) (fill : Fill)
  | rawCopy

namespace Layer

/-- The layer with a component in it. -/
def around : Layer → Format → Format
  | named name, of => .named name of
  | documented docs, of => .documented docs of
  | struct before after overwrite, of => .struct (before ++ of :: after) overwrite
  | sequence before after, of => .sequence (before ++ of :: after)
  | focused focus before after, of => .focused focus (before ++ of :: after)
  | select before after tagged, of => .select (before ++ of :: after) tagged
  | prefixed length inclusive lenient, of => .prefixed length of inclusive lenient
  | fixedSized length, of => .fixedSized length of
  | padded length fill, of => .padded length of fill
  | aligned modulus fill, of => .aligned modulus of fill
  | rawCopy, of => .rawCopy of

/-- Whether the members of the layer have a frame of their own. -/
def isFrame : Layer → Bool
  | struct _ _ _ | sequence _ _ | focused _ _ _ => true
  | _ => false

/-- How many members there are in front of the component. -/
def position : Layer → Nat
  | struct before _ _ | sequence before _ | focused _ before _ | select before _ _ => before.length
  | _ => 0

/-- The path of a component of this name in the layer. -/
def place : Layer → Option String → Path → Path
  | struct _ _ _, name, path => path.memberIf name
  | sequence before _, name, path | focused _ before _, name, path => path.item name before.length
  | _, _, path => path

end Layer

namespace Format

/-- The format that these layers make of a component. -/
def within : List Layer → Format → Format
  | [], f => f
  | layer :: layers, f => layer.around (within layers f)

/-- The name of a component that these layers make of one without a name. -/
def labelOf : List Layer → Option String
  | .named name :: _ => some name
  | .documented _ :: layers => labelOf layers
  | _ => none

/-- The path of the component in these layers. -/
def pathIn : List Layer → Path → Path
  | [], path => path
  | layer :: layers, path => pathIn layers (layer.place (labelOf layers) path)

/-- The name under which a patch of the component is noted by the structure around these layers,
if it is the innermost one. -/
def notedAs (layers : List Layer) (path : Path) : Option String :=
  if layers.any Layer.isFrame then none else (pathIn layers path).fieldName?

/-- What can be seen of a format from outside. -/
structure Facade (f g : Format) : Prop where
  name : f.name? = g.name?
  embedded : f.isEmbedded = g.isEmbedded
  selfSupplying : f.isSelfSupplying = g.isSelfSupplying

private theorem anySelfSupplying_congr {f g : Format} (same : f.isSelfSupplying = g.isSelfSupplying)
    (before after : List Format) :
    anySelfSupplying (before ++ f :: after) = anySelfSupplying (before ++ g :: after) := by
  induction before with
  | nil => simp only [List.nil_append, anySelfSupplying, same]
  | cons first rest ih => simp only [List.cons_append, anySelfSupplying, ih]

private theorem Facade.around {f g : Format} (h : Facade f g) (layer : Layer) :
    Facade (layer.around f) (layer.around g) := by
  obtain ⟨name, embedded, supplied⟩ := h
  cases layer with
  | named => exact ⟨rfl, embedded, supplied⟩
  | documented => exact ⟨name, embedded, supplied⟩
  | select before after tagged => exact ⟨rfl, rfl, anySelfSupplying_congr supplied before after⟩
  | struct | sequence | focused | rawCopy => exact ⟨rfl, rfl, rfl⟩
  | prefixed | fixedSized | padded | aligned => exact ⟨rfl, rfl, supplied⟩

theorem Facade.within {f g : Format} (h : Facade f g) : ∀ layers : List Layer,
    Facade (within layers f) (within layers g)
  | [] => h
  | layer :: layers => (h.within layers).around layer

theorem name?_within {f : Format} (nameless : f.name? = none) : ∀ layers : List Layer,
    (within layers f).name? = labelOf layers
  | [] => nameless
  | .named _ :: _ => rfl
  | .documented _ :: layers => name?_within nameless layers
  | .struct _ _ _ :: _ | .sequence _ _ :: _ | .focused _ _ _ :: _ | .select _ _ _ :: _
  | .prefixed _ _ _ :: _ | .fixedSized _ :: _ | .padded _ _ :: _ | .aligned _ _ :: _
  | .rawCopy :: _ => rfl

theorem isEmbedded_within {f : Format} (flat : f.isEmbedded = false) : ∀ layers : List Layer,
    (within layers f).isEmbedded = false
  | [] => flat
  | .named _ :: layers | .documented _ :: layers => isEmbedded_within flat layers
  | .struct _ _ _ :: _ | .sequence _ _ :: _ | .focused _ _ _ :: _ | .select _ _ _ :: _
  | .prefixed _ _ _ :: _ | .fixedSized _ :: _ | .padded _ _ :: _ | .aligned _ _ :: _
  | .rawCopy :: _ => rfl

theorem position?_congr {f g : Format} (same : f.name? = g.name?) (focus : Selector)
    (before after : List Format) :
    position? focus (before ++ f :: after) = position? focus (before ++ g :: after) := by
  cases focus with
  | position i => simp only [position?, List.length_append, List.length_cons]
  | name name =>
      simp only [position?, List.findIdx?_append, List.findIdx?_cons, same]

end Format

/-! ## Frames and values that differ in the field -/

/-- The frames differ at most in one entry, in a limited way, and in another one. -/
def Record.Alike (own noted : Option String) (inner : Value → Value → Prop)
    (frame frame' : Record Value) : Prop :=
  List.Forall₂ (fun entry entry' => entry.1 = entry'.1 ∧
    (entry.2 = entry'.2 ∨ (own = some entry.1 ∧ inner entry.2 entry'.2) ∨ noted = some entry.1))
    frame frame'

namespace Record

variable {own noted : Option String} {inner : Value → Value → Prop} {frame frame' : Record Value}

theorem Alike.refl (frame : Record Value) : Alike own noted inner frame frame :=
  List.forall₂_same.mpr fun _ _ => ⟨rfl, .inl rfl⟩

theorem Alike.insert (h : Alike own noted inner frame frame') {name : String} {v v' : Value}
    (fits : v = v' ∨ (own = some name ∧ inner v v') ∨ noted = some name) :
    Alike own noted inner (Record.insert frame name v) (Record.insert frame' name v') := by
  induction h with
  | nil => exact .cons ⟨rfl, fits⟩ .nil
  | @cons entry entry' rest rest' first later ih =>
      obtain ⟨key, w⟩ := entry
      obtain ⟨_, w'⟩ := entry'
      obtain ⟨rfl, fits'⟩ := first
      by_cases same : key = name
      · subst same
        simp only [Record.insert, if_true]
        exact .cons ⟨rfl, fits⟩ later
      · simp only [Record.insert, if_neg same]
        exact .cons ⟨rfl, fits'⟩ ih

theorem Alike.replace (h : Alike own noted inner frame frame') {name : String} {v w : Value}
    (allowed : noted = some name) (there : Record.get? frame name = some w) :
    Alike own noted inner (Record.insert frame name v) frame' := by
  induction h with
  | nil => cases there
  | @cons entry entry' rest rest' first later ih =>
      obtain ⟨key, u⟩ := entry
      obtain ⟨_, u'⟩ := entry'
      obtain ⟨rfl, fits⟩ := first
      by_cases same : key = name
      · subst same
        simp only [Record.insert, if_true]
        exact .cons ⟨rfl, .inr (.inr allowed)⟩ later
      · rw [Record.get?, if_neg same] at there
        simp only [Record.insert, if_neg same]
        exact .cons ⟨rfl, fits⟩ (ih there)

end Record

namespace Format

/-- Values that are built with these layers around a field differ at most in what stands in the
field, in raw copies of it, and in the entry that a patch is noted under. -/
def Alike : List Layer → Path → Value → Value → Prop
  | [], _, _, _ | .rawCopy :: _, _, _, _ => True
  | .struct _ _ _ :: layers, path, v, v' => ∃ frame frame' : Record Value,
      v = .container frame ∧ v' = .container frame' ∧
        Record.Alike (labelOf layers) (notedAs layers (path.memberIf (labelOf layers)))
          (Alike layers (path.memberIf (labelOf layers))) frame frame'
  | .sequence before _ :: layers, path, v, v' => ∃ front w w' back,
      v = .list (front ++ w :: back) ∧ v' = .list (front ++ w' :: back) ∧
        front.length = before.length ∧
          Alike layers (path.item (labelOf layers) before.length) w w'
  | .focused focus before after :: layers, path, v, v' =>
      if position? focus (before ++ within layers .pass :: after) = some before.length then
        Alike layers (path.item (labelOf layers) before.length) v v'
      else v = v'
  | .select _ _ tagged :: layers, path, v, v' =>
      if tagged then ∃ label w w', v = .container [("name", label), ("value", w)] ∧
        v' = .container [("name", label), ("value", w')] ∧ Alike layers path w w'
      else Alike layers path v v'
  | .named _ :: layers, path, v, v' | .documented _ :: layers, path, v, v'
  | .prefixed _ _ _ :: layers, path, v, v' | .fixedSized _ :: layers, path, v, v'
  | .padded _ _ :: layers, path, v, v' | .aligned _ _ :: layers, path, v, v' =>
      Alike layers path v v'

/-- Whatever frames differ in the field alone, the members behind it do not see it. -/
def Unseen (e : Engine) (layers : List Layer) (place : Path) (after : List Format) : Prop :=
  ∀ (frame frame' : Record Value) (frames : List (Record Value)),
    Record.Alike (labelOf layers) (notedAs layers place) (Alike layers place) frame frame' →
      OverlooksAll e (frame :: frames) (frame' :: frames) after

/-- The other members of the layers are nested formats, and none of them reads the field, a raw
copy of it, or the entry that a patch is noted under. -/
def Unread (e : Engine) : List Layer → Path → Prop
  | [], _ => True
  | layer :: layers, path =>
      (match layer with
        | .struct before after _ | .sequence before after | .focused _ before after =>
            NestedAll before ∧ NestedAll after ∧
              Unseen e layers (layer.place (labelOf layers) path) after
        | .select before after _ => NestedAll before ∧ NestedAll after
        | .prefixed length _ _ => length.Nested
        | _ => True) ∧
      Unread e layers (layer.place (labelOf layers) path)

end Format

end BinaryFormat
