import BinaryFormat.Proofs.Filling.Patches

/-!
# Structures of fields of constant size

Nested structures, sequences and sequences with a focus, of numbers and byte
strings of constant size, constants and raw copies, with any number of fields
that are computed when they are built.  A checksum is over a field in front of
it: parsing knows no other.
-/

namespace BinaryFormat

namespace Format

/-- The position of the item that a selector chooses. -/
def position? (selector : Selector) (items : List Format) : Option Nat :=
  match selector with
  | .position i => if i < items.length then some i else none
  | .name name => items.findIdx? fun f => f.name? == some name

private theorem index?_parts (e : Engine) (defs : Definitions) (selector : Selector)
    (items : List Format) :
    Codec.Select.index? selector (parts e defs items) = position? selector items := by
  cases selector with
  | position i => simp only [Codec.Select.index?, position?, length_parts]
  | name name =>
      simp only [Codec.Select.index?, position?]
      induction items with
      | nil => rfl
      | cons f rest ih =>
          rw [parts, List.findIdx?_cons, List.findIdx?_cons, ih]
          rfl

theorem focusIndex_eq_ok_iff {e : Engine} {defs : Definitions} {focus : Selector}
    {items : List Format} {path : Path} {i : Nat} {s s' : State} :
    Codec.focusIndex focus (parts e defs items) path s = .ok i s' ↔
      position? focus items = some i ∧ s' = s := by
  rw [Codec.focusIndex, index?_parts]
  cases position? focus items with
  | none => exact ⟨nofun, fun h => nomatch h.1⟩
  | some j =>
      constructor
      · intro h
        cases h
        exact ⟨rfl, rfl⟩
      · rintro ⟨same, rfl⟩
        cases same
        rfl

theorem exists_of_position? {selector : Selector} {items : List Format} {i : Nat}
    (h : position? selector items = some i) : ∃ f, items[i]? = some f := by
  refine ⟨_, List.getElem?_eq_getElem ?_⟩
  unfold position? at h
  split at h
  · split at h
    · next within => exact Option.some.inj h ▸ within
    · cases h
  · exact (List.findIdx?_eq_some_iff_findIdx_eq.mp h).1

/-- Building the component may leave a patch on the frame around it. -/
def Defers : Format → Prop
  | rebuild _ _ | checksum _ _ _ => True
  | named _ of | documented _ of | rawCopy of => Defers of
  | _ => False

/-! ## What checksums can be over -/

mutual

/-- These steps lead from what is built to something that is in it: into the fields of a
structure, the entries of a raw copy, the items of a list, and the item in focus. -/
def Reaches : Format → List Value.Step → Prop
  | named _ of, steps | documented _ of, steps => Reaches of steps
  | rawCopy of, steps => steps = [] ∨
      ¬ Defers of ∧
        (steps ∈ [[.entry "length"], [.entry "data"], [.entry "offset1"], [.entry "offset2"]] ∨
          ∃ rest, steps = .entry "value" :: rest ∧ Reaches of rest)
  | struct fields _, steps => steps = [] ∨
      ∃ name rest, steps = .entry name :: rest ∧ FieldReaches fields name rest
  | sequence items, steps => steps = [] ∨
      ∃ i rest, steps = .item i :: rest ∧ ItemReaches items i rest
  | focused focus items, steps => steps = [] ∨
      ∃ i, position? focus items = some i ∧ ItemReaches items i steps
  | _, steps => steps = []

def FieldReaches : List Format → String → List Value.Step → Prop
  | [], _, _ => False
  | f :: rest, name, steps => f.name? = some name ∧ Reaches f steps ∨ FieldReaches rest name steps

def ItemReaches : List Format → Nat → List Value.Step → Prop
  | [], _, _ => False
  | f :: _, 0, steps => Reaches f steps
  | _ :: rest, i + 1, steps => ItemReaches rest i steps

end

/-- What these steps lead to is there. -/
def Shapes (f : Format) (w : Value) : Prop :=
  ∀ steps, f.Reaches steps → ∃ x, w.reach steps = some x

/-- The frames show these fields, with what steps lead to in them. -/
def Shown (sources : List (Record Format)) (frames : List (Record Value)) : Prop :=
  ∀ (j : Nat) (front : Record Format), sources[j]? = some front →
    ∃ frame : Record Value, frames[j]? = some frame ∧
      ∀ (name : String) (f : Format), Record.get? front name = some f →
        Record.isPrivate name = false →
          ∃ w : Value, Record.get? frame name = some w ∧ f.Shapes w

end Format

/-- The fields in front show the same in the frames of both runs. -/
def Matches (sources : List (Record Format)) (built parsed : List (Record Value)) : Prop :=
  ∀ (j : Nat) (front : Record Format), sources[j]? = some front →
    ∃ frame frame' : Record Value, built[j]? = some frame ∧ parsed[j]? = some frame' ∧
      ∀ (name : String) (f : Format), Record.get? front name = some f →
        Record.isPrivate name = false → ∃ w p : Value, Record.get? frame name = some w ∧
          Record.get? frame' name = some p ∧ w.FillsTo p ∧ f.Shapes w

namespace Format

/-- Behind these fields the expression has a value, and the same one when they are parsed. -/
structure Sighted (sources : List (Record Format)) (data : Expr) : Prop where
  shown : ∀ frames, Shown sources frames → ∃ x, data.Yields frames x
  filled : ∀ frames frames', Matches sources frames frames' →
    ∃ x y, data.Yields frames x ∧ data.Yields frames' y ∧ x.FillsTo y

theorem sighted_walk {sources : List (Record Format)} {j : Nat} {front : Record Format}
    {name : String} {f : Format} {steps : List Value.Step} (at_j : sources[j]? = some front)
    (found : Record.get? front name = some f) (shown : Record.isPrivate name = false)
    (shown' : ∀ name, .entry name ∈ steps → Record.isPrivate name = false)
    (reaches : f.Reaches steps) : Sighted sources (.walk j name steps) where
  shown frames showing := by
    obtain ⟨frame, built, each⟩ := showing j front at_j
    obtain ⟨w, noted, shapes⟩ := each name f found shown
    obtain ⟨x, reached⟩ := shapes steps reaches
    exact ⟨x, Expr.yields_walk built shown noted reached⟩
  filled frames frames' same := by
    obtain ⟨frame, frame', built, parsed, each⟩ := same j front at_j
    obtain ⟨w, p, noted, read, fills, shapes⟩ := each name f found shown
    obtain ⟨x, reached⟩ := shapes steps reaches
    obtain ⟨y, reached', fills'⟩ := fills.reach shown' reached
    exact ⟨x, y, Expr.yields_walk built shown noted reached,
      Expr.yields_walk parsed shown read reached', fills'⟩

/-! ## The formats -/

/-- The components in front of the next one, by name. -/
def note (f : Format) (front : Record Format) : Record Format :=
  match f.name? with
  | some name => front.insert name f
  | none => front

mutual

/-- A component at a path, of which the value is `visible` in the end or not, behind the fields
of the structures around it. -/
def Framed : Bool → Path → List (Record Format) → Format → Prop
  | _, _, _, integer width signed endian => ∃ n, Patchable n (integer width signed endian)
  | _, _, _, bytes length => ∃ n, Patchable n (bytes length)
  | _, _, _, constant of value => (∃ n, of.Patchable n) ∧ value.IsAtom ∧ value.InRange
  | visible, _, _, rebuild of _ => (∃ n, of.Patchable n) ∧ (visible = true ∨ of.Holdable = true)
  | _, _, sources, checksum of _ data => (∃ n, of.Patchable n) ∧ Sighted sources data
  | visible, path, sources, named _ of | visible, path, sources, documented _ of
  | visible, path, sources, rawCopy of => Framed visible path sources of
  | visible, path, sources, struct fields _ =>
      (fieldNames fields).Nodup ∧
        FramedFields visible path (fieldNames fields) sources [] fields
  | visible, path, sources, sequence items =>
      FramedItems (fun _ => visible) path sources [] 0 items
  | visible, path, sources, focused focus items =>
      FramedItems (fun i => visible && position? focus items == some i) path sources [] 0 items
  | _, _, _, _ => False

/-- Fields behind others in a structure.  A patch is noted under the last name of its path, which
has to be that of its own field. -/
def FramedFields : Bool → Path → List String → List (Record Format) → Record Format →
    List Format → Prop
  | _, _, _, _, _, [] => True
  | visible, path, names, sources, front, f :: rest =>
      Framed (visible && f.name?.isSome) (path.memberIf f.name?) (front :: sources) f ∧
        (∀ key ∈ names, (path.memberIf f.name?).fieldName? = some key → f.name? = some key) ∧
        FramedFields visible path names sources (note f front) rest

/-- Items behind others, of which some are visible. -/
def FramedItems : (Nat → Bool) → Path → List (Record Format) → Record Format → Nat →
    List Format → Prop
  | _, _, _, _, _, [] => True
  | visible, path, sources, front, i, f :: rest =>
      Framed (visible i) (path.item f.name? i) (front :: sources) f ∧
        FramedItems visible path sources (note f front) (i + 1) rest

end

/-! ## Fields that are computed in time -/

/-- Where these fields show, the expression waits for nothing. -/
def Known (sources : List (Record Format)) (expr : Expr) : Prop :=
  ∀ (r : Resolver) (frames : List (Record Value)) (path : Path) (store store' : LazyStore)
    (failure : Failure), Shown sources frames →
      expr.evaluate r ⟨frames, none, none⟩ path store = .error failure store' →
      failure.fault.isPending = false

/-- A patch is noted under this name, wherever the field is. -/
def Notable (name : String) : Prop := ∀ path : Path, (path.member name).fieldName? = some name

/-- The fields of a structure by name. -/
def byName : List Format → Record Format → Record Format
  | [], front => front
  | f :: rest, front => byName rest (note f front)

mutual

/-- What is computed in the component is known from the fields `now`, and what a structure can
still note from those that show `later`. -/
def Timely : List (Record Format) → List (Record Format) → Format → Prop
  | _, later, rebuild _ expr => Known later expr
  | now, later, named _ of | now, later, documented _ of => Timely now later of
  | now, _, rawCopy of => Timely now now of
  | now, _, struct fields _ => FieldsTimely (byName fields []) now [] fields
  | now, _, sequence items | now, _, focused _ items => ItemsTimely now [] items
  | _, _, _ => True

def FieldsTimely : Record Format → List (Record Format) → Record Format → List Format → Prop
  | _, _, _, [] => True
  | whole, now, front, f :: rest =>
      Timely (front :: now) (whole :: now) f ∧
        (∀ name, f.Defers → f.name? = some name → Notable name) ∧
        FieldsTimely whole now (note f front) rest

def ItemsTimely : List (Record Format) → Record Format → List Format → Prop
  | _, _, [] => True
  | now, front, f :: rest =>
      Timely (front :: now) (front :: now) f ∧ ItemsTimely now (note f front) rest

end

/-! ## Sizes -/

mutual

/-- How many bytes a component takes. -/
def extent : Format → Nat
  | integer (.const (.int width)) _ _ => width.toNat
  | bytes (.const (.int length)) => length.toNat
  | constant of _ | rebuild of _ | checksum of _ _ | named _ of | documented _ of => extent of
  | struct fields _ => extents fields
  | sequence items | focused _ items => extents items
  | _ => 0

def extents : List Format → Nat
  | [] => 0
  | f :: rest => extent f + extents rest

end

mutual

/-- There is no raw copy in the component. -/
def isCopyless : Format → Bool
  | rawCopy _ => false
  | named _ of | documented _ of => isCopyless of
  | struct fields _ => areCopyless fields
  | sequence items | focused _ items => areCopyless items
  | _ => true

def areCopyless : List Format → Bool
  | [] => true
  | f :: rest => isCopyless f && areCopyless rest

end

theorem extent_of_patchable {of : Format} {n : Nat} (leaf : of.Patchable n) : of.extent = n := by
  cases leaf <;> rfl

/-! ## Inputs and outcomes -/

/-- What a field is built from. -/
def given (f : Format) (input : Record Value) : Value :=
  match f.name? with
  | some name => (Record.get? input name).getD .none
  | none => .none

mutual

/-- Structures are given entries for their fields only.  The data of a raw copy that is given no
value is a whole component, which does not note where it stands. -/
def Accepts : Format → Value → Prop
  | named _ of, u | documented _ of, u => Accepts of u
  | rawCopy of, u => u.isLazy = false ∧ ∀ given, u.fields? = some given →
      (((Record.get? given "value").getD .none).isNone = false →
        Accepts of ((Record.get? given "value").getD .none)) ∧
      (((Record.get? given "value").getD .none).isNone = true →
        ∀ data, (Record.get? given "data").bind Value.bytes? = some data →
          of.isCopyless = true ∧ data.length = of.extent)
  | struct fields _, u => u.isLazy = false ∧ ∀ given, u.fields? = some given →
      (Record.keys given).Nodup ∧
        (∀ key ∈ Record.keys given, Record.isPrivate key = false → key ∈ fieldNames fields) ∧
        FieldsAccept fields given
  | sequence items, u => u.isLazy = false ∧ ∀ given, u.list? = some given →
      ItemsAccept items given
  | focused focus items, u => ∀ i, position? focus items = some i → ItemAccepts items i u
  | _, _ => True

def FieldsAccept : List Format → Record Value → Prop
  | [], _ => True
  | f :: rest, input => Accepts f (f.given input) ∧ FieldsAccept rest input

def ItemsAccept : List Format → List Value → Prop
  | f :: rest, u :: us => Accepts f u ∧ ItemsAccept rest us
  | _, _ => True

def ItemAccepts : List Format → Nat → Value → Prop
  | [], _, _ => True
  | f :: _, 0, u => Accepts f u
  | _ :: rest, i + 1, u => ItemAccepts rest i u

end

mutual

/-- Raw copies in what was built hold the bytes that are left at their offsets, and the numbers
that may be too large are shown. -/
def UpToDate (final : List UInt8) : Format → Value → Prop
  | rebuild of _, w => of.Holdable = true ∨ w ≠ .none
  | named _ of, w | documented _ of, w => UpToDate final of w
  | rawCopy of, w => ∃ v start stop,
      w = Codec.rawRecord ((final.drop start).take (stop - start)) v start stop ∧
        UpToDate final of v
  | struct fields _, w => ∀ record, w = .container record → FieldsUpToDate final fields record
  | sequence items, w => ∀ ws, w = .list ws → ItemsUpToDate final items ws
  | focused focus items, w =>
      ∀ i, position? focus items = some i → ItemUpToDate final items i w
  | _, _ => True

def FieldsUpToDate (final : List UInt8) : List Format → Record Value → Prop
  | [], _ => True
  | f :: rest, record =>
      (∀ name w, f.name? = some name → Record.get? record name = some w → UpToDate final f w) ∧
        FieldsUpToDate final rest record

def ItemsUpToDate (final : List UInt8) : List Format → List Value → Prop
  | f :: rest, w :: ws => UpToDate final f w ∧ ItemsUpToDate final rest ws
  | _, _ => True

def ItemUpToDate (final : List UInt8) : List Format → Nat → Value → Prop
  | [], _, _ => True
  | f :: _, 0, w => UpToDate final f w
  | _ :: rest, i + 1, w => ItemUpToDate final rest i w

end

/-! ## Small facts -/

theorem given_of_named {f : Format} {name : String} (own : f.name? = some name)
    (input : Record Value) : f.given input = (Record.get? input name).getD .none := by
  rw [given, own]

theorem given_of_unnamed {f : Format} (unnamed : f.name? = none) (input : Record Value) :
    f.given input = .none := by
  rw [given, unnamed]

theorem notable {name : String} (plain : ∀ c ∈ name.toList, c ≠ '.')
    (shown : (name.toList.isEmpty || name.toList.getLast? == some ']' || name == "this") = false) :
    Notable name := by
  intro path
  have last : ((path.member name).text.toList.reverse.takeWhile (· != '.')).reverse =
      name.toList := by
    have text : (path.member name).text.toList.reverse =
        name.toList.reverse ++ '.' :: path.text.toList.reverse := by
      simp [Path.text]
    have kept : ∀ c ∈ name.toList.reverse, (c != '.') = true := fun c mem =>
      bne_iff_ne.mpr (plain c (List.mem_reverse.mp mem))
    rw [text, List.takeWhile_append_of_pos kept, List.takeWhile_cons_of_neg (by simp),
      List.append_nil, List.reverse_reverse]
  simp only [Path.fieldName?, last, String.ofList_toList, shown, Bool.false_eq_true, if_false]

theorem framed_of_patchable {of : Format} {n : Nat} (leaf : of.Patchable n) (visible : Bool)
    (path : Path) (sources : List (Record Format)) : of.Framed visible path sources := by
  cases leaf with
  | integer narrow signed endian =>
      simp only [Framed]
      exact ⟨_, .integer narrow signed endian⟩
  | bytes room =>
      simp only [Framed]
      exact ⟨_, .bytes room⟩

theorem flat_of_framed {visible : Bool} {path : Path} {sources : List (Record Format)} :
    ∀ {f : Format}, Framed visible path sources f → f.isEmbedded = false :=
  isEmbedded_eq_false_of (P := Framed visible path sources) id id id

/-- A component that may leave a patch has nothing in it to go to. -/
theorem eq_nil_of_defers {steps : List Value.Step} : ∀ {f : Format}, f.Defers →
    f.Reaches steps → steps = [] := by
  intro f defers reaches
  cases f with
  | named name of => exact eq_nil_of_defers (f := of) defers (by simpa only [Reaches] using reaches)
  | documented docs of =>
      exact eq_nil_of_defers (f := of) defers (by simpa only [Reaches] using reaches)
  | rawCopy of =>
      simp only [Reaches] at reaches
      exact reaches.resolve_right fun ⟨settled, _⟩ => settled defers
  | rebuild | checksum => simpa only [Reaches] using reaches
  | _ => exact defers.elim

theorem shapes_of_nil {f : Format} (nothing : ∀ steps, f.Reaches steps → steps = [])
    (w : Value) : f.Shapes w := by
  intro steps reaches
  rw [nothing steps reaches]
  exact ⟨w, rfl⟩

theorem eq_nil_of_leaf {of : Format} {n : Nat} (leaf : of.Patchable n) (steps : List Value.Step)
    (reaches : of.Reaches steps) : steps = [] := by
  cases leaf <;> simpa only [Reaches] using reaches

theorem upToDate_of_items {final : List UInt8} {items : List Format} {ws : List Value}
    (h : ItemsUpToDate final items ws) {i : Nat} {f : Format} {w : Value}
    (at_i : items[i]? = some f) (found : ws[i]? = some w) : f.UpToDate final w := by
  induction items generalizing ws i with
  | nil => cases at_i
  | cons g rest ih =>
      cases ws with
      | nil => cases found
      | cons v ws =>
          simp only [ItemsUpToDate] at h
          cases i with
          | zero =>
              cases at_i
              cases found
              exact h.1
          | succ i => exact ih h.2 at_i found

theorem itemUpToDate_iff {final : List UInt8} {items : List Format} {i : Nat} {f : Format}
    {w : Value} (at_i : items[i]? = some f) :
    ItemUpToDate final items i w ↔ f.UpToDate final w := by
  induction items generalizing i with
  | nil => cases at_i
  | cons g rest ih =>
      cases i with
      | zero =>
          cases at_i
          simp only [ItemUpToDate]
      | succ i =>
          simp only [ItemUpToDate]
          exact ih at_i

theorem exists_of_itemReaches {items : List Format} {i : Nat} {steps : List Value.Step}
    (h : ItemReaches items i steps) : ∃ f, items[i]? = some f ∧ f.Reaches steps := by
  induction items generalizing i with
  | nil => simp only [ItemReaches] at h
  | cons g rest ih =>
      cases i with
      | zero => exact ⟨g, rfl, by simpa only [ItemReaches] using h⟩
      | succ i => exact ih (by simpa only [ItemReaches] using h)

theorem shapes_of_items {items : List Format} {ws : List Value}
    (h : ∀ (i : Nat) (f : Format), items[i]? = some f → ∃ w : Value, ws[i]? = some w ∧ f.Shapes w) :
    (sequence items).Shapes (.list ws) := by
  intro steps reaches
  simp only [Reaches] at reaches
  rcases reaches with rfl | ⟨i, rest, rfl, reaches⟩
  · exact ⟨_, rfl⟩
  · obtain ⟨f, at_i, reaches⟩ := exists_of_itemReaches reaches
    obtain ⟨w, found, shapes⟩ := h i f at_i
    obtain ⟨x, reached⟩ := shapes rest reaches
    exact ⟨x, Option.bind_eq_some_iff.mpr ⟨w, found, reached⟩⟩

theorem upToDate_of_leaf {of : Format} {n : Nat} (leaf : of.Patchable n) (final : List UInt8)
    (w : Value) : of.UpToDate final w := by
  cases leaf <;> simp only [UpToDate]

mutual

theorem accepts_atom {u : Value} (atom : u.IsAtom) : ∀ f : Format, f.Accepts u := by
  intro f
  have lazy : u.isLazy = false := by cases u <;> first | rfl | exact atom.elim
  have fields : u.fields? = .none := by cases u <;> first | rfl | exact atom.elim
  have list : u.list? = .none := by cases u <;> first | rfl | exact atom.elim
  cases f with
  | named name of => simpa only [Accepts] using accepts_atom atom of
  | documented docs of => simpa only [Accepts] using accepts_atom atom of
  | rawCopy | struct | sequence => simp [Accepts, lazy, fields, list]
  | focused focus items =>
      simp only [Accepts]
      exact fun i _ => itemAccepts_atom atom items i
  | _ => simp only [Accepts]

theorem itemAccepts_atom {u : Value} (atom : u.IsAtom) : ∀ (items : List Format) (i : Nat),
    ItemAccepts items i u
  | [], _ => by simp only [ItemAccepts]
  | f :: _, 0 => by simpa only [ItemAccepts] using accepts_atom atom f
  | _ :: rest, i + 1 => by simpa only [ItemAccepts] using itemAccepts_atom atom rest i

end

end Format

end BinaryFormat
