import BinaryFormat.Codec.BackPatch
import BinaryFormat.Proofs.Eager

/-!
# Values that match

Two runs of one session give different handles to the lazy parts of the values
that they come to.  Values match if they differ in no more than their handles, and
these stand for each other.  Whatever looks at a value without resolving it does
the same with a value that matches; the texts in faults may differ in how many
members of a lazy value they show as resolved.
-/

namespace BinaryFormat

/-! ## Records -/

/-- Records with the same names and related values. -/
inductive Record.Match {α β : Type} (P : α → β → Prop) : Record α → Record β → Prop
  | nil : Match P [] []
  | cons (key : String) {a : α} {b : β} {fs : Record α} {gs : Record β} (first : P a b)
      (later : Match P fs gs) : Match P ((key, a) :: fs) ((key, b) :: gs)

namespace Record

variable {α β : Type} {P : α → β → Prop} {fs : Record α} {gs : Record β}

theorem Match.length (h : Match P fs gs) : fs.length = gs.length := by
  induction h with
  | nil => rfl
  | cons _ _ _ ih => rw [List.length_cons, List.length_cons, ih]

theorem Match.get? (h : Match P fs gs) (name : String) :
    Option.Rel P (Record.get? fs name) (Record.get? gs name) := by
  induction h with
  | nil => exact .none
  | cons key first _ ih =>
      rw [Record.get?, Record.get?]
      by_cases same : key = name
      · rw [if_pos same, if_pos same]
        exact .some first
      · rw [if_neg same, if_neg same]
        exact ih

private theorem Match.insert (h : Match P fs gs) (name : String) {a : α} {b : β} (value : P a b) :
    Match P (Record.insert fs name a) (Record.insert gs name b) := by
  induction h with
  | nil => exact .cons name value .nil
  | cons key first later ih =>
      rw [Record.insert, Record.insert]
      by_cases same : key = name
      · rw [if_pos same, if_pos same]
        exact .cons key value later
      · rw [if_neg same, if_neg same]
        exact .cons key first ih

private theorem Match.filter (h : Match P fs gs) (keep : String → Bool) :
    Match P (fs.filter fun f => keep f.1) (gs.filter fun f => keep f.1) := by
  induction h with
  | nil => exact .nil
  | cons key first _ ih =>
      cases kept : keep key with
      | true =>
          simp only [List.filter_cons, kept, if_true]
          exact .cons key first ih
      | false =>
          simp only [List.filter_cons, kept, Bool.false_eq_true, if_false]
          exact ih

theorem Match.visible (h : Match P fs gs) : Match P (Record.visible fs) (Record.visible gs) :=
  h.filter fun name => !Record.isPrivate name

theorem Match.forall₂_map {γ : Type} {Q : γ → γ → Prop} (h : Match P fs gs)
    {f : String × α → γ} {g : String × β → γ}
    (each : ∀ key a b, P a b → Q (f (key, a)) (g (key, b))) :
    List.Forall₂ Q (fs.map f) (gs.map g) := by
  induction h with
  | nil => exact .nil
  | cons key first _ ih => exact .cons (each key _ _ first) ih

end Record

/-! ## Values -/

namespace Value

/-- Neither compound nor lazy. -/
def IsPlain : Value → Prop
  | none | bool _ | int _ | float _ | bytes _ | str _ => True
  | _ => False

mutual

/-- Values that differ in no more than handles that stand for each other. -/
inductive Matches (R : Handle → Handle → Prop) : Value → Value → Prop
  | plain {v : Value} (h : v.IsPlain) : Matches R v v
  | list {as bs : List Value} (items : ItemsMatch R as bs) : Matches R (.list as) (.list bs)
  | container {fs gs : List (String × Value)} (fields : FieldsMatch R fs gs) :
      Matches R (.container fs) (.container gs)
  | flags {fs gs : List (String × Value)} (fields : FieldsMatch R fs gs) :
      Matches R (.flags fs) (.flags gs)
  | lazyContainer {h k : Handle} (related : R h k) (keys : List String) :
      Matches R (.lazyContainer h keys) (.lazyContainer k keys)
  | lazyList {h k : Handle} (related : R h k) (length : Nat) :
      Matches R (.lazyList h length) (.lazyList k length)

inductive ItemsMatch (R : Handle → Handle → Prop) : List Value → List Value → Prop
  | nil : ItemsMatch R [] []
  | cons {a b : Value} {as bs : List Value} (first : Matches R a b) (later : ItemsMatch R as bs) :
      ItemsMatch R (a :: as) (b :: bs)

inductive FieldsMatch (R : Handle → Handle → Prop) :
    List (String × Value) → List (String × Value) → Prop
  | nil : FieldsMatch R [] []
  | cons (key : String) {a b : Value} {fs gs : List (String × Value)} (first : Matches R a b)
      (later : FieldsMatch R fs gs) : FieldsMatch R ((key, a) :: fs) ((key, b) :: gs)

end

variable {R S T : Handle → Handle → Prop}

/-! ### Matching as a relation -/

mutual

theorem Matches.mono (more : ∀ h k, R h k → S h k) : ∀ {v w : Value}, Matches R v w →
    Matches S v w
  | _, _, .plain h => .plain h
  | _, _, .list items => .list (items.mono more)
  | _, _, .container fields => .container (fields.mono more)
  | _, _, .flags fields => .flags (fields.mono more)
  | _, _, .lazyContainer related keys => .lazyContainer (more _ _ related) keys
  | _, _, .lazyList related length => .lazyList (more _ _ related) length

theorem ItemsMatch.mono (more : ∀ h k, R h k → S h k) : ∀ {as bs : List Value},
    ItemsMatch R as bs → ItemsMatch S as bs
  | _, _, .nil => .nil
  | _, _, .cons first later => .cons (first.mono more) (later.mono more)

theorem FieldsMatch.mono (more : ∀ h k, R h k → S h k) : ∀ {fs gs : List (String × Value)},
    FieldsMatch R fs gs → FieldsMatch S fs gs
  | _, _, .nil => .nil
  | _, _, .cons key first later => .cons key (first.mono more) (later.mono more)

end

mutual

theorem Matches.symm (flip : ∀ h k, R h k → S k h) : ∀ {v w : Value}, Matches R v w →
    Matches S w v
  | _, _, .plain h => .plain h
  | _, _, .list items => .list (items.symm flip)
  | _, _, .container fields => .container (fields.symm flip)
  | _, _, .flags fields => .flags (fields.symm flip)
  | _, _, .lazyContainer related keys => .lazyContainer (flip _ _ related) keys
  | _, _, .lazyList related length => .lazyList (flip _ _ related) length

theorem ItemsMatch.symm (flip : ∀ h k, R h k → S k h) : ∀ {as bs : List Value},
    ItemsMatch R as bs → ItemsMatch S bs as
  | _, _, .nil => .nil
  | _, _, .cons first later => .cons (first.symm flip) (later.symm flip)

private theorem FieldsMatch.symm (flip : ∀ h k, R h k → S k h) : ∀ {fs gs : List (String × Value)},
    FieldsMatch R fs gs → FieldsMatch S gs fs
  | _, _, .nil => .nil
  | _, _, .cons key first later => .cons key (first.symm flip) (later.symm flip)

end

private theorem Matches.of_plain {v w : Value} (h : Matches R v w) (plain : v.IsPlain) : w = v := by
  cases h with
  | plain => rfl
  | list | container | flags | lazyContainer | lazyList => exact plain.elim

mutual

theorem Matches.trans (join : ∀ h k l, R h k → S k l → T h l) : ∀ {u v w : Value},
    Matches R u v → Matches S v w → Matches T u w
  | _, _, _, .plain plain, h => by
      rw [h.of_plain plain]
      exact .plain plain
  | _, _, _, .list _, .plain plain => plain.elim
  | _, _, _, .list items, .list items' => .list (items.trans join items')
  | _, _, _, .container _, .plain plain => plain.elim
  | _, _, _, .container fields, .container fields' => .container (fields.trans join fields')
  | _, _, _, .flags _, .plain plain => plain.elim
  | _, _, _, .flags fields, .flags fields' => .flags (fields.trans join fields')
  | _, _, _, .lazyContainer _ _, .plain plain => plain.elim
  | _, _, _, .lazyContainer related keys, .lazyContainer related' _ =>
      .lazyContainer (join _ _ _ related related') keys
  | _, _, _, .lazyList _ _, .plain plain => plain.elim
  | _, _, _, .lazyList related length, .lazyList related' _ =>
      .lazyList (join _ _ _ related related') length

theorem ItemsMatch.trans (join : ∀ h k l, R h k → S k l → T h l) : ∀ {as bs cs : List Value},
    ItemsMatch R as bs → ItemsMatch S bs cs → ItemsMatch T as cs
  | _, _, _, .nil, .nil => .nil
  | _, _, _, .cons first later, .cons first' later' =>
      .cons (first.trans join first') (later.trans join later')

private theorem FieldsMatch.trans (join : ∀ h k l, R h k → S k l → T h l) :
    ∀ {fs gs ks : List (String × Value)},
      FieldsMatch R fs gs → FieldsMatch S gs ks → FieldsMatch T fs ks
  | _, _, _, .nil, .nil => .nil
  | _, _, _, .cons key first later, .cons _ first' later' =>
      .cons key (first.trans join first') (later.trans join later')

end

mutual

theorem matches_self (same : ∀ h, R h h) : ∀ v : Value, Matches R v v
  | .list items => .list (itemsMatch_self same items)
  | .container fields => .container (fieldsMatch_self same fields)
  | .flags fields => .flags (fieldsMatch_self same fields)
  | .lazyContainer handle keys => .lazyContainer (same handle) keys
  | .lazyList handle length => .lazyList (same handle) length
  | .none | .bool _ | .int _ | .float _ | .bytes _ | .str _ => .plain trivial

theorem itemsMatch_self (same : ∀ h, R h h) : ∀ items : List Value, ItemsMatch R items items
  | [] => .nil
  | item :: rest => .cons (matches_self same item) (itemsMatch_self same rest)

theorem fieldsMatch_self (same : ∀ h, R h h) : ∀ fields : List (String × Value),
    FieldsMatch R fields fields
  | [] => .nil
  | (key, value) :: rest => .cons key (matches_self same value) (fieldsMatch_self same rest)

end

mutual

theorem matches_of_eager : ∀ {v : Value}, v.Eager → Matches R v v
  | .list _, h => .list (itemsMatch_of_eager h)
  | .container _, h => .container (fieldsMatch_of_eager h)
  | .flags _, h => .flags (fieldsMatch_of_eager h)
  | .lazyContainer _ _, h => h.elim
  | .lazyList _ _, h => h.elim
  | .none, _ | .bool _, _ | .int _, _ | .float _, _ | .bytes _, _ | .str _, _ => .plain trivial

private theorem itemsMatch_of_eager : ∀ {items : List Value}, EagerItems items →
    ItemsMatch R items items
  | [], _ => .nil
  | _ :: _, h => .cons (matches_of_eager h.1) (itemsMatch_of_eager h.2)

theorem fieldsMatch_of_eager : ∀ {fields : List (String × Value)}, EagerFields fields →
    FieldsMatch R fields fields
  | [], _ => .nil
  | (key, _) :: _, h => .cons key (matches_of_eager h.1) (fieldsMatch_of_eager h.2)

end

/-! ### What can be seen of a value -/

section

variable {v w : Value} {as bs cs ds : List Value} {fs gs : List (String × Value)} {P : Prop}

theorem FieldsMatch.records (h : FieldsMatch R fs gs) : Record.Match (Matches R) fs gs := by
  induction fs generalizing gs with
  | nil =>
      cases h
      exact .nil
  | cons f rest ih =>
      cases h with
      | cons key first later => exact .cons key first (ih later)

private theorem fieldsMatch_of_records (h : Record.Match (Matches R) fs gs) :
    FieldsMatch R fs gs := by
  induction h with
  | nil => exact .nil
  | cons key first _ ih => exact .cons key first ih

theorem ItemsMatch.length (h : ItemsMatch R as bs) : as.length = bs.length := by
  induction as generalizing bs with
  | nil => cases h; rfl
  | cons a rest ih =>
      cases h with
      | cons first later => rw [List.length_cons, List.length_cons, ih later]

theorem Matches.typeName (h : Matches R v w) : v.typeName = w.typeName := by
  cases h <;> rfl

theorem Matches.int? (h : Matches R v w) : v.int? = w.int? := by
  cases h <;> rfl

theorem Matches.isLazy (h : Matches R v w) : v.isLazy = w.isLazy := by
  cases h <;> rfl

private theorem FieldsMatch.isEmpty (h : FieldsMatch R fs gs) : fs.isEmpty = gs.isEmpty := by
  cases h <;> rfl

theorem FieldsMatch.length (h : FieldsMatch R fs gs) : fs.length = gs.length := h.records.length

theorem Matches.holds (h : Matches R v w) : v.holds = w.holds := by
  cases h with
  | plain | lazyContainer | lazyList => rfl
  | list items => cases items <;> rfl
  | container fields | flags fields => exact congrArg not fields.isEmpty

theorem Matches.length? (h : Matches R v w) : v.length? = w.length? := by
  cases h with
  | plain | lazyContainer | lazyList => rfl
  | list items => exact congrArg some items.length
  | container fields | flags fields => exact congrArg some fields.length

theorem Matches.items (h : Matches R v w) : ItemsMatch R (v.list?.getD []) (w.list?.getD []) := by
  cases h with
  | list items => exact items
  | plain plain => cases v <;> first | exact .nil | exact plain.elim
  | container | flags | lazyContainer | lazyList => exact .nil

theorem matches_ofNat (n : Nat) : Matches R (.ofNat n) (.ofNat n) := .plain trivial

theorem itemsMatch_ofBytes (data : List UInt8) : ItemsMatch R (ofBytes data) (ofBytes data) :=
  itemsMatch_of_eager (eagerItems_ofBytes data)

/-! ### Lists of values -/

theorem ItemsMatch.getD (h : ItemsMatch R as bs) (i : Nat) :
    Matches R (as.getD i .none) (bs.getD i .none) := by
  induction as generalizing bs i with
  | nil =>
      cases h
      exact .plain trivial
  | cons a rest ih =>
      cases h with
      | cons first later =>
          cases i with
          | zero => exact first
          | succ i => exact ih later i

private theorem ItemsMatch.append (h : ItemsMatch R as bs) (h' : ItemsMatch R cs ds) :
    ItemsMatch R (as ++ cs) (bs ++ ds) := by
  induction as generalizing bs with
  | nil =>
      cases h
      exact h'
  | cons a rest ih =>
      cases h with
      | cons first later => exact .cons first (ih later)

theorem ItemsMatch.reverse (h : ItemsMatch R as bs) : ItemsMatch R as.reverse bs.reverse := by
  induction as generalizing bs with
  | nil =>
      cases h
      exact .nil
  | cons a rest ih =>
      cases h with
      | cons first later =>
          rw [List.reverse_cons, List.reverse_cons]
          exact (ih later).append (.cons first .nil)

/-! ### Records of values -/

theorem FieldsMatch.get? (h : FieldsMatch R fs gs) (name : String) :
    Option.Rel (Matches R) (Record.get? fs name) (Record.get? gs name) := h.records.get? name

theorem FieldsMatch.contains (h : FieldsMatch R fs gs) (name : String) :
    Record.contains fs name = Record.contains gs name := by
  have found := h.get? name
  unfold Record.contains
  generalize Record.get? fs name = v at found
  generalize Record.get? gs name = w at found
  cases found <;> rfl

theorem FieldsMatch.insert (h : FieldsMatch R fs gs) (name : String) (value : Matches R v w) :
    FieldsMatch R (Record.insert fs name v) (Record.insert gs name w) :=
  fieldsMatch_of_records (h.records.insert name value)

theorem FieldsMatch.filter (h : FieldsMatch R fs gs) (keep : String → Bool) :
    FieldsMatch R (fs.filter fun f => keep f.1) (gs.filter fun f => keep f.1) :=
  fieldsMatch_of_records (h.records.filter keep)

theorem FieldsMatch.visible (h : FieldsMatch R fs gs) :
    FieldsMatch R (Record.visible fs) (Record.visible gs) :=
  h.filter fun name => !Record.isPrivate name

end

/-! ### Equality -/

mutual

theorem Matches.same : ∀ {a b c d : Value}, Matches R a b → Matches S c d → a.same c = b.same d
  | _, _, _, _, .plain _, .plain _ => rfl
  | a, _, _, _, .plain p, .list _ | a, _, _, _, .plain p, .container _
  | a, _, _, _, .plain p, .flags _ | a, _, _, _, .plain p, .lazyContainer _ _
  | a, _, _, _, .plain p, .lazyList _ _ => by cases a <;> first | rfl | exact p.elim
  | _, _, _, _, .list items, .list items' => by
      simp only [Value.same]
      exact items.same items'
  | _, _, c, _, .list _, .plain p => by cases c <;> first | rfl | exact p.elim
  | _, _, _, _, .list _, .container _ | _, _, _, _, .list _, .flags _
  | _, _, _, _, .list _, .lazyContainer _ _ | _, _, _, _, .list _, .lazyList _ _ => rfl
  | _, _, _, _, .container fields, .container fields'
  | _, _, _, _, .container fields, .flags fields'
  | _, _, _, _, .flags fields, .container fields'
  | _, _, _, _, .flags fields, .flags fields' => by
      simp only [Value.same]
      rw [fields.visible.length, fields'.visible.length, fields.within fields']
  | _, _, c, _, .container _, .plain p | _, _, c, _, .flags _, .plain p => by
      cases c <;> first | rfl | exact p.elim
  | _, _, _, _, .container _, .list _ | _, _, _, _, .container _, .lazyContainer _ _
  | _, _, _, _, .container _, .lazyList _ _ | _, _, _, _, .flags _, .list _
  | _, _, _, _, .flags _, .lazyContainer _ _ | _, _, _, _, .flags _, .lazyList _ _ => rfl
  | _, _, c, _, .lazyContainer _ _, h => by cases h <;> rfl
  | _, _, c, _, .lazyList _ _, h => by cases h <;> rfl

theorem ItemsMatch.same : ∀ {as bs cs ds : List Value}, ItemsMatch R as bs → ItemsMatch S cs ds →
    sameItems as cs = sameItems bs ds
  | _, _, _, _, .nil, .nil => rfl
  | _, _, _, _, .nil, .cons _ _ => rfl
  | _, _, _, _, .cons _ _, .nil => rfl
  | _, _, _, _, .cons first later, .cons first' later' => by
      simp only [sameItems]
      rw [first.same first', later.same later']

theorem FieldsMatch.within : ∀ {fs gs ks ls : List (String × Value)}, FieldsMatch R fs gs →
    FieldsMatch S ks ls → within fs ks = within gs ls
  | _, _, _, _, .nil, _ => rfl
  | _, _, ks, ls, .cons key first later, other => by
      simp only [Value.within]
      rw [later.within other]
      have found := other.get? key
      generalize Record.get? ks key = v at found
      generalize Record.get? ls key = w at found
      cases found with
      | none => rfl
      | some matched => simp only [first.same matched]

end

/-! ### Texts -/

/-- Texts of one value, with any numbers of resolved members. -/
def ShownAlike (s t : String) : Prop :=
  ∃ v w r r', Matches (fun _ _ => True) v w ∧ s = dump r v ∧ t = dump r' w

theorem Matches.shown {v w : Value} (h : Matches R v w) (r r' : Handle → Nat) :
    ShownAlike (dump r v) (dump r' w) :=
  ⟨v, w, r, r', h.mono fun _ _ _ => trivial, rfl, rfl⟩

end Value

/-! ## Results -/

/-- Related values, or related errors. -/
inductive ResultsMatch {ε α : Type} (E : ε → ε → Prop) (A : α → α → Prop) :
    Except ε α → Except ε α → Prop
  | ok {a b : α} (related : A a b) : ResultsMatch E A (.ok a) (.ok b)
  | error {e f : ε} (related : E e f) : ResultsMatch E A (.error e) (.error f)

/-! ## Faults -/

/-- Faults that differ in no more than the numbers of resolved members in the values that
they show. -/
inductive Fault.Matches : Fault → Fault → Prop
  | refl (fault : Fault) : Matches fault fault
  | constMismatch {s s' t t' : String} (wanted : Value.ShownAlike s s')
      (found : Value.ShownAlike t t') : Matches (.constMismatch s t) (.constMismatch s' t')
  | noCase {s s' : String} (key : Value.ShownAlike s s') : Matches (.noCase s) (.noCase s')
  | stringLength {s s' : String} (shown : Value.ShownAlike s s') :
      Matches (.misfit (.stringLength s)) (.misfit (.stringLength s'))
  | stored {s s' : String} (shown : Value.ShownAlike s s') :
      Matches (.miscount (.stored s)) (.miscount (.stored s'))
  | checksum {s s' t t' : String} (stored : Value.ShownAlike s s')
      (computed : Value.ShownAlike t t') :
      Matches (.rejected (.checksum s t)) (.rejected (.checksum s' t'))
  | predicate {s s' : String} (shown : Value.ShownAlike s s') (expr : String) :
      Matches (.rejected (.predicate s expr)) (.rejected (.predicate s' expr))
  | notOneOf {s s' : String} (shown : Value.ShownAlike s s') (allowed : String) :
      Matches (.rejected (.notOneOf s allowed)) (.rejected (.notOneOf s' allowed))
  | oneOf {s s' : String} (shown : Value.ShownAlike s s') (denied : String) :
      Matches (.rejected (.oneOf s denied)) (.rejected (.oneOf s' denied))
  | raw {s s' : String} (shown : Value.ShownAlike s s') :
      Matches (.unmapped (.raw s)) (.unmapped (.raw s'))
  | count (expr : String) {f f' : Fault} (cause : Matches f f') :
      Matches (.unsized (.count expr f)) (.unsized (.count expr f'))
  | condition (expr : String) {f f' : Fault} (cause : Matches f f') :
      Matches (.unsized (.condition expr f)) (.unsized (.condition expr f'))

/-- Matching faults at the same place. -/
structure Failure.Matches (f f' : Failure) : Prop where
  fault : f.fault.Matches f'.fault
  path : f.path = f'.path
  offset : f.offset = f'.offset

namespace Fault

variable {f f' : Fault}

theorem Matches.isExplicit (h : f.Matches f') : f.isExplicit = f'.isExplicit := by
  cases h <;> rfl

theorem Matches.atPath (h : f.Matches f') (path : Path) :
    (f.atPath path).Matches (f'.atPath path) :=
  ⟨h, rfl, rfl⟩

end Fault

namespace Failure

theorem Matches.refl (f : Failure) : f.Matches f := ⟨.refl _, rfl, rfl⟩

theorem Matches.withOffset {f f' : Failure} (h : f.Matches f') (offset : Nat) :
    (f.withOffset offset).Matches (f'.withOffset offset) :=
  ⟨h.fault, h.path, congrArg (·.or (some offset)) h.offset⟩

end Failure

/-! ## Functions of values -/

section

open Value

variable {R S T : Handle → Handle → Prop} {a b c d : Value} {as bs : List Value}
  {fs gs : List (String × Value)}

namespace Arithmetic

private theorem compareValues?_eq (h : Matches R a b) (h' : Matches S c d) :
    compareValues? a c = compareValues? b d := by
  cases h with
  | plain => cases h' with
    | plain => rfl
    | _ => cases a <;> rfl
  | _ => cases h' with
    | plain => cases c <;> rfl
    | _ => rfl

private theorem apply_eq (op : BinaryOp) (h : Matches R a b) (h' : Matches S c d) :
    apply op a c = apply op b d := by
  unfold apply
  have mismatched : mismatch op a c = mismatch op b d := by
    rw [mismatch, mismatch, h.typeName, h'.typeName]
  rw [compareValues?_eq h h', mismatched]
  split
  · rfl
  · cases h with
    | plain => cases h' with
      | plain => rfl
      | _ => cases a <;> rfl
    | _ => cases h' with
      | plain => cases c <;> rfl
      | _ => rfl

private theorem isPlain_numbers {op : BinaryOp} {v : Value} (h : numbers op a b = .ok v) :
    v.IsPlain := by
  unfold numbers at h
  dsimp only at h
  split_ifs at h
  · revert h
    cases a.float? with
    | none => nofun
    | some x => cases b.float? with
      | none => nofun
      | some y =>
          dsimp only
          cases onFloats op x y with
          | none => nofun
          | some z =>
              intro h
              cases h
              trivial
  · revert h
    cases a.int? with
    | none => nofun
    | some x => cases b.int? with
      | none => nofun
      | some y =>
          dsimp only
          cases onInts op x y with
          | error cause => nofun
          | ok n =>
              intro h
              cases h
              trivial

private theorem isPlain_apply {op : BinaryOp} {v : Value} (h : apply op a b = .ok v) :
    v.IsPlain := by
  unfold apply at h
  split at h
  · split at h
    · cases h
      trivial
    · cases h
  · split at h
    · split at h
      · cases h
        trivial
      · exact isPlain_numbers h
    · split at h
      · cases h
        trivial
      · exact isPlain_numbers h
    · split at h
      · cases h
        trivial
      · exact isPlain_numbers h
    · exact isPlain_numbers h

theorem matches_apply (op : BinaryOp) (h : Matches R a b) (h' : Matches S c d) :
    ResultsMatch Eq (Matches T) (apply op a c) (apply op b d) := by
  rw [apply_eq op h h']
  cases result : apply op b d with
  | error cause => exact .error rfl
  | ok v => exact .ok (.plain (isPlain_apply result))

theorem matches_unary (op : UnaryOp) (h : Matches R a b) :
    ResultsMatch Eq (Matches T) (unary op a) (unary op b) := by
  have holds := h.holds
  have kind := h.typeName
  have same : unary op a = unary op b := by
    cases h with
    | plain => rfl
    | _ => cases op <;> simp only [unary, kind, holds]
  rw [same]
  cases result : unary op b with
  | error cause => exact .error rfl
  | ok v =>
      refine .ok (.plain ?_)
      unfold unary at result
      split at result
      · split at result
        · cases result
          trivial
        · cases result
      all_goals first | (cases result; trivial) | cases result

theorem matches_abs (h : Matches R a b) : ResultsMatch Eq (Matches T) (abs a) (abs b) := by
  have kind := h.typeName
  have same : abs a = abs b := by
    cases h with
    | plain => rfl
    | _ => simp only [abs, kind]
  rw [same]
  cases result : abs b with
  | error cause => exact .error rfl
  | ok v =>
      refine .ok (.plain ?_)
      unfold abs at result
      split at result
      · split at result
        · cases result
          trivial
        · cases result
      all_goals first | (cases result; trivial) | cases result

private theorem matches_foldlM {f : Value → Value → Except Unevaluable Value}
    (step : ∀ {a b c d : Value}, Matches R a b → Matches R c d →
      ResultsMatch Eq (Matches R) (f a c) (f b d)) :
    ∀ {as bs : List Value}, ItemsMatch R as bs → ∀ {a b : Value}, Matches R a b →
      ResultsMatch Eq (Matches R) (as.foldlM f a) (bs.foldlM f b)
  | _, _, .nil, _, _, h => .ok h
  | _, _, .cons first later, _, _, h => by
      rw [List.foldlM_cons, List.foldlM_cons]
      have here := step h first
      generalize f _ _ = r at here
      generalize f _ _ = r' at here
      cases here with
      | error same => exact .error same
      | ok matched => exact matches_foldlM step later matched

theorem matches_sum (h : ItemsMatch R as bs) : ResultsMatch Eq (Matches R) (sum as) (sum bs) :=
  matches_foldlM (fun h h' => matches_apply .add h h') h (.plain trivial)

theorem matches_extreme (name : String) (wanted : Ordering) (h : ItemsMatch R as bs) :
    ResultsMatch Eq (Matches R) (extreme name wanted as) (extreme name wanted bs) := by
  cases h with
  | nil => exact .error rfl
  | cons first later =>
      refine matches_foldlM (fun h h' => ?_) later first
      rw [compareValues?_eq h' h]
      split
      · split
        · exact .ok h'
        · exact .ok h
      · exact .error rfl

end Arithmetic

namespace Checksum

private theorem byte?_eq (h : Matches R a b) : byte? a = byte? b := by
  rw [byte?, byte?, h.int?]

private theorem listBytes_eq (h : ItemsMatch R as bs) : listBytes as = listBytes bs := by
  induction as generalizing bs with
  | nil => cases h; rfl
  | cons a rest ih =>
      cases h with
      | cons first later => rw [listBytes, listBytes, byte?_eq first, ih later]

mutual

private theorem input_eq : ∀ {a b : Value}, Matches R a b → input a = input b
  | _, _, .plain _ => rfl
  | _, _, .list items => by simp only [input, listBytes_eq items]
  | _, _, .container fields => by simp only [input, inputOfData_eq fields]
  | _, _, .flags _ | _, _, .lazyContainer _ _ | _, _, .lazyList _ _ => rfl

theorem inputOfData_eq : ∀ {fs gs : List (String × Value)}, FieldsMatch R fs gs →
    inputOfData fs = inputOfData gs
  | _, _, .nil => rfl
  | _, _, .cons key first later => by
      simp only [inputOfData, input_eq first, inputOfData_eq later]

end

theorem matches_digest (hash : Hash) (h : Matches R a b) :
    ResultsMatch Fault.Matches (Matches S) (digest hash a) (digest hash b) := by
  rw [digest, digest, input_eq h]
  cases input b with
  | error fault => exact .error (.refl fault)
  | ok data =>
      refine .ok (.plain ?_)
      show (hash data).value.IsPlain
      cases hash data <;> trivial

end Checksum

end

/-! ## Scopes and contexts -/

/-- Stacks of frames that match. -/
def FramesMatch (R : Handle → Handle → Prop) (fs gs : List (Record Value)) : Prop :=
  List.Forall₂ (Value.FieldsMatch R) fs gs

/-- Scopes in which everything that can be seen matches. -/
structure Scope.Matches (R : Handle → Handle → Prop) (scope scope' : Scope) : Prop where
  frames : FramesMatch R scope.frames scope'.frames
  object : Option.Rel (Value.Matches R) scope.object scope'.object
  list : Option.Rel (Value.ItemsMatch R) scope.list scope'.list

/-- Contexts whose frames match; the patches that they queue are not compared. -/
def Context.Matches (R : Handle → Handle → Prop) (ctx ctx' : Context) : Prop :=
  FramesMatch R ctx.frames ctx'.frames

section

variable {R S T : Handle → Handle → Prop} {fs gs : List (Record Value)} {ctx ctx' ctx'' : Context}

theorem FramesMatch.mono (h : FramesMatch R fs gs) (more : ∀ h k, R h k → S h k) :
    FramesMatch S fs gs :=
  h.imp fun _ _ frame => frame.mono more

theorem FramesMatch.drop (h : FramesMatch R fs gs) (n : Nat) :
    FramesMatch R (fs.drop n) (gs.drop n) :=
  List.forall₂_drop n h

theorem FramesMatch.headD (h : FramesMatch R fs gs) :
    Value.FieldsMatch R (fs.headD []) (gs.headD []) := by
  cases h with
  | nil => exact .nil
  | cons first later => exact first

theorem FramesMatch.findSome? (h : FramesMatch R fs gs) (name : String) :
    Option.Rel (Value.Matches R) (fs.findSome? fun f => Record.get? f name)
      (gs.findSome? fun f => Record.get? f name) := by
  induction h with
  | nil => exact .none
  | @cons f g _ _ first later ih =>
      rw [List.findSome?_cons, List.findSome?_cons]
      have found := first.get? name
      generalize Record.get? f name = v at found
      generalize Record.get? g name = w at found
      cases found with
      | none => exact ih
      | some matched => exact .some matched

namespace Context

theorem Matches.mono (h : ctx.Matches R ctx') (more : ∀ h k, R h k → S h k) :
    ctx.Matches S ctx' :=
  FramesMatch.mono h more

theorem Matches.symm (h : ctx.Matches R ctx') (flip : ∀ h k, R h k → S k h) :
    ctx'.Matches S ctx :=
  (List.Forall₂.flip h).imp fun _ _ frame => frame.symm flip

theorem Matches.trans (h : ctx.Matches R ctx') (h' : ctx'.Matches S ctx'')
    (join : ∀ h k l, R h k → S k l → T h l) : ctx.Matches T ctx'' := by
  unfold Context.Matches at h h' ⊢
  generalize ctx.frames = fs at h
  generalize ctx'.frames = gs at h h'
  generalize ctx''.frames = ks at h'
  induction h generalizing ks with
  | nil =>
      cases h'
      exact .nil
  | cons first later ih =>
      cases h' with
      | cons first' later' => exact .cons (first.trans join first') (ih _ later')

theorem Matches.scope (h : ctx.Matches R ctx') : ctx.scope.Matches R ctx'.scope :=
  ⟨h, .none, .none⟩

theorem Matches.innermost (h : ctx.Matches R ctx') :
    Value.FieldsMatch R ctx.innermost ctx'.innermost := by
  cases h with
  | cons first later => exact first

theorem Matches.insert (h : ctx.Matches R ctx') (name : String) {v w : Value}
    (value : v.Matches R w) : (ctx.insert name v).Matches R (ctx'.insert name w) := by
  cases h with
  | cons first later => exact .cons (first.insert name value) later

theorem Matches.push (h : ctx.Matches R ctx') {fields fields' : Record Value}
    (matched : Value.FieldsMatch R fields fields') :
    (ctx.push fields).Matches R (ctx'.push fields') :=
  .cons matched h

theorem Matches.pop (h : ctx.Matches R ctx') : ctx.pop.Matches R ctx'.pop := by
  obtain ⟨top, below⟩ := ctx
  obtain ⟨top', below'⟩ := ctx'
  cases below with
  | nil =>
      cases below' with
      | nil => exact h
      | cons => nomatch h
  | cons next rest =>
      cases below' with
      | nil => nomatch h
      | cons next' rest' =>
          cases h with
          | cons _ later => exact later

end Context

end

end BinaryFormat
