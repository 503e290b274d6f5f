import BinaryFormat.Proofs.Decided
import BinaryFormat.Proofs.Visibility

/-!
# Placeholders and what fills them

A field that is patched later leaves a placeholder in the value that is built
and zeros in the bytes.  What is parsed in the end is the value that was built,
with values in the place of the placeholders; so a checksum over what was built
of an earlier field is a checksum over what is parsed of it.
-/

namespace BinaryFormat

/-! ## Values with placeholders -/

namespace Value

mutual

/-- The other value is this one with values in the place of placeholders; private entries and
the order of entries do not count. -/
def FillsTo : Value → Value → Prop
  | none, _ => True
  | int n, int k => n = k
  | bytes data, bytes stored => data = stored
  | list ws, list ps => FillsToItems ws ps
  | container ws, container ps =>
      (Record.keys ws).Nodup ∧ (Record.keys ps).Nodup ∧
        (∀ key ∈ Record.keys ps, Record.isPrivate key = false → key ∈ Record.keys ws) ∧
        FillsToFields ws ps
  | _, _ => False

def FillsToItems : List Value → List Value → Prop
  | [], [] => True
  | w :: ws, p :: ps => FillsTo w p ∧ FillsToItems ws ps
  | _, _ => False

def FillsToFields : List (String × Value) → Record Value → Prop
  | [], _ => True
  | (key, w) :: rest, ps =>
      (Record.isPrivate key = false → ∃ p, Record.get? ps key = some p ∧ FillsTo w p) ∧
        FillsToFields rest ps

end

mutual

/-- No placeholder is left in the public part of a value. -/
def isFilled : Value → Bool
  | none => false
  | list items => areFilled items
  | container fields => haveFilled fields
  | _ => true

def areFilled : List Value → Bool
  | [] => true
  | v :: rest => isFilled v && areFilled rest

def haveFilled : List (String × Value) → Bool
  | [] => true
  | (key, v) :: rest => (Record.isPrivate key || isFilled v) && haveFilled rest

end

theorem fillsTo_none (p : Value) : none.FillsTo p := by simp only [FillsTo]

theorem fillsToFields_iff {ws : List (String × Value)} {ps : Record Value} :
    FillsToFields ws ps ↔ ∀ key w, (key, w) ∈ ws → Record.isPrivate key = false →
      ∃ p, Record.get? ps key = some p ∧ w.FillsTo p := by
  induction ws with
  | nil => simp [FillsToFields]
  | cons entry rest ih =>
      obtain ⟨key, w⟩ := entry
      simp only [FillsToFields, ih, List.mem_cons]
      constructor
      · rintro ⟨head, tail⟩ k x (same | mem) shown
        · cases same
          exact head shown
        · exact tail k x mem shown
      · intro all
        exact ⟨all key w (Or.inl rfl), fun k x mem => all k x (Or.inr mem)⟩

/-- A record is filled to another one of the same public names, entry by entry. -/
theorem fillsTo_container {ws ps : Record Value} (distinct : (Record.keys ws).Nodup)
    (distinct' : (Record.keys ps).Nodup)
    (each : ∀ key, Record.isPrivate key = false →
      (Record.get? ws key = .none ∧ Record.get? ps key = .none) ∨
        ∃ w p, Record.get? ws key = some w ∧ Record.get? ps key = some p ∧ w.FillsTo p) :
    (container ws).FillsTo (container ps) := by
  simp only [FillsTo]
  refine ⟨distinct, distinct', fun key mem shown => ?_,
    fillsToFields_iff.mpr fun key w mem shown => ?_⟩
  · rcases each key shown with ⟨-, absent⟩ | ⟨w, _, found, -⟩
    · exact absurd mem (Record.not_mem_keys_iff.mpr absent)
    · exact Record.mem_keys_iff.mpr ⟨w, found⟩
  · have found := Record.get?_eq_some_of_mem distinct mem
    rcases each key shown with ⟨absent, -⟩ | ⟨w', p, found', held, fills⟩
    · rw [absent] at found
      cases found
    · rw [found'] at found
      cases found
      exact ⟨p, held, fills⟩

private theorem FillsTo.get? {ws ps : Record Value} (h : (container ws).FillsTo (container ps))
    {key : String} {w : Value} (shown : Record.isPrivate key = false)
    (found : Record.get? ws key = some w) :
    ∃ p, Record.get? ps key = some p ∧ w.FillsTo p := by
  simp only [FillsTo] at h
  exact fillsToFields_iff.mp h.2.2.2 key w (Record.mem_of_get?_eq_some found) shown

theorem IsAtom.fillsTo {w : Value} (atom : w.IsAtom) : w.FillsTo w := by
  cases w <;> simp_all [IsAtom, FillsTo]

theorem haveFilled_iff {fields : List (String × Value)} :
    haveFilled fields = true ↔
      ∀ key w, (key, w) ∈ fields → Record.isPrivate key = false → w.isFilled = true := by
  induction fields with
  | nil => simp [haveFilled]
  | cons entry rest ih =>
      obtain ⟨key, w⟩ := entry
      simp only [haveFilled, Bool.and_eq_true, Bool.or_eq_true, ih, List.mem_cons]
      constructor
      · rintro ⟨head, tail⟩ k x (same | mem) shown
        · cases same
          exact head.resolve_left (by simp [shown])
        · exact tail k x mem shown
      · intro all
        refine ⟨?_, fun k x mem => all k x (Or.inr mem)⟩
        cases shown : Record.isPrivate key with
        | true => exact Or.inl rfl
        | false => exact Or.inr (all key w (Or.inl rfl) shown)

theorem IsAtom.isFilled {w : Value} (atom : w.IsAtom) (present : w ≠ .none) :
    w.isFilled = true := by
  cases w <;> first | rfl | exact absurd rfl present | exact atom.elim

mutual

/-- Where no placeholder is left, what a value is filled to has the same public content. -/
theorem FillsTo.same : ∀ {w p : Value}, w.FillsTo p → w.isFilled = true → w.same p = true
  | none, _, _, filled => by simp [isFilled] at filled
  | int n, p, h, _ => by
      cases p <;> simp_all [FillsTo, Value.same]
  | bytes data, p, h, _ => by
      cases p <;> simp_all [FillsTo, Value.same]
  | list ws, p, h, filled => by
      cases p <;> simp only [FillsTo] at h
      simp only [isFilled] at filled
      simp only [Value.same]
      exact FillsToItems.same h filled
  | container ws, p, h, filled => by
      cases p with
      | container ps =>
          simp only [FillsTo] at h
          simp only [isFilled] at filled
          obtain ⟨distinct, distinct', back, fields⟩ := h
          have names (key : String) (shown : Record.isPrivate key = false) :
              key ∈ Record.keys ws ↔ key ∈ Record.keys ps := by
            refine ⟨fun mem => ?_, fun mem => back key mem shown⟩
            obtain ⟨w, found⟩ := Record.mem_keys_iff.mp mem
            obtain ⟨p, held, -⟩ := fillsToFields_iff.mp fields key w
              (Record.mem_of_get?_eq_some found) shown
            exact Record.mem_keys_iff.mpr ⟨p, held⟩
          simp only [Value.same, Record.length_visible distinct distinct' names,
            FillsToFields.within fields filled, BEq.rfl, Bool.and_self]
      | _ => simp only [FillsTo] at h
  | bool _, _, h, _ | float _, _, h, _ | str _, _, h, _ | flags _, _, h, _
  | lazyContainer _ _, _, h, _ | lazyList _ _, _, h, _ => by simp only [FillsTo] at h

theorem FillsToItems.same : ∀ {ws ps : List Value}, FillsToItems ws ps →
    areFilled ws = true → sameItems ws ps = true
  | [], [], _, _ => rfl
  | [], _ :: _, h, _ | _ :: _, [], h, _ => by simp only [FillsToItems] at h
  | w :: ws, p :: ps, h, filled => by
      simp only [FillsToItems] at h
      simp only [areFilled, Bool.and_eq_true] at filled
      simp only [sameItems, h.1.same filled.1, FillsToItems.same h.2 filled.2, Bool.and_self]

theorem FillsToFields.within : ∀ {ws : List (String × Value)} {ps : Record Value},
    FillsToFields ws ps → haveFilled ws = true → within ws ps = true
  | [], _, _, _ => rfl
  | (key, w) :: rest, ps, h, filled => by
      simp only [FillsToFields] at h
      simp only [haveFilled, Bool.and_eq_true, Bool.or_eq_true] at filled
      have tail := FillsToFields.within h.2 filled.2
      cases shown : Record.isPrivate key with
      | true => simp only [Value.within, shown, tail, Bool.true_or, Bool.and_self]
      | false =>
          obtain ⟨p, found, fills⟩ := h.1 shown
          have here := fills.same (filled.1.resolve_left (by simp [shown]))
          simp only [Value.within, shown, found, here, tail, Bool.false_or, Bool.and_self]

end

/-! ## Steps into a value -/

/-- A step into a value: to an entry of a record, or to an item of a list. -/
inductive Step where
  | entry (name : String)
  | item (i : Nat)

/-- What is found by going these steps. -/
def reach : Value → List Step → Option Value
  | v, [] => some v
  | container fields, .entry name :: rest => (Record.get? fields name).bind fun v => reach v rest
  | list items, .item i :: rest => items[i]?.bind fun v => reach v rest
  | _, _ :: _ => .none

private theorem FillsToItems.getElem? {ws ps : List Value} (h : FillsToItems ws ps) {i : Nat}
    {w : Value}
    (found : ws[i]? = some w) : ∃ p, ps[i]? = some p ∧ w.FillsTo p := by
  induction ws generalizing ps i with
  | nil => cases found
  | cons v ws ih =>
      cases ps with
      | nil => simp only [FillsToItems] at h
      | cons p ps =>
          simp only [FillsToItems] at h
          cases i with
          | zero =>
              cases found
              exact ⟨p, rfl, h.1⟩
          | succ i => exact ih h.2 found

theorem FillsTo.reach {steps : List Step} : ∀ {w p x : Value}, w.FillsTo p →
    (∀ name, .entry name ∈ steps → Record.isPrivate name = false) → w.reach steps = some x →
    ∃ y, p.reach steps = some y ∧ x.FillsTo y := by
  induction steps with
  | nil =>
      intro w p x fills _ found
      cases found
      exact ⟨p, rfl, fills⟩
  | cons step rest ih =>
      intro w p x fills shown found
      have shown' : ∀ name, .entry name ∈ rest → Record.isPrivate name = false :=
        fun name mem => shown name (List.mem_cons_of_mem _ mem)
      cases step with
      | entry name =>
          cases w with
          | container ws =>
              cases p with
              | container ps =>
                  obtain ⟨w, held, further⟩ := Option.bind_eq_some_iff.mp found
                  obtain ⟨p, held', fills'⟩ := fills.get? (shown name List.mem_cons_self) held
                  obtain ⟨y, found', fills''⟩ := ih fills' shown' further
                  exact ⟨y, Option.bind_eq_some_iff.mpr ⟨p, held', found'⟩, fills''⟩
              | _ => simp only [FillsTo] at fills
          | _ => cases found
      | item i =>
          cases w with
          | list ws =>
              cases p with
              | list ps =>
                  simp only [FillsTo] at fills
                  obtain ⟨w, held, further⟩ := Option.bind_eq_some_iff.mp found
                  obtain ⟨p, held', fills'⟩ := fills.getElem? held
                  obtain ⟨y, found', fills''⟩ := ih fills' shown' further
                  exact ⟨y, Option.bind_eq_some_iff.mpr ⟨p, held', found'⟩, fills''⟩
              | _ => simp only [FillsTo] at fills
          | _ => cases found

end Value

namespace Checksum

private theorem listBytes_of_fillsTo {data : List UInt8} : ∀ {ws ps : List Value},
    Value.FillsToItems ws ps → listBytes ws = some data → listBytes ps = some data := by
  intro ws
  induction ws generalizing data with
  | nil =>
      intro ps h found
      cases ps with
      | nil => exact found
      | cons p ps => simp only [Value.FillsToItems] at h
  | cons w ws ih =>
      intro ps h found
      cases ps with
      | nil => simp only [Value.FillsToItems] at h
      | cons p ps =>
          simp only [Value.FillsToItems] at h
          rw [listBytes] at found ⊢
          obtain ⟨b, byte, later⟩ := Option.bind_eq_some_iff.mp found
          obtain ⟨rest, bytes, whole⟩ := Option.bind_eq_some_iff.mp later
          have same : p = w := by
            cases w with
            | int n =>
                cases p <;> simp only [Value.FillsTo, false_and] at h ⊢
                exact congrArg _ h.1.symm
            | bool b => cases p <;> simp [Value.FillsTo] at h
            | _ => cases byte
          rw [same]
          exact Option.bind_eq_some_iff.mpr
            ⟨b, byte, Option.bind_eq_some_iff.mpr ⟨rest, ih h.2 bytes, whole⟩⟩

private theorem inputOfData_of_get? {fields : Record Value} {v : Value}
    (found : Record.get? fields "data" = some v) : inputOfData fields = input v := by
  induction fields with
  | nil => cases found
  | cons entry rest ih =>
      obtain ⟨key, other⟩ := entry
      rw [Record.get?] at found
      rw [inputOfData]
      split at found
      · next own =>
          cases found
          rw [if_pos own]
      · next own => rw [if_neg own, ih found]

mutual

/-- What covers bytes covers the same ones when placeholders elsewhere are filled. -/
private theorem input_of_fillsTo {data : List UInt8} : ∀ {w p : Value}, w.FillsTo p →
    input w = .ok data → input p = .ok data
  | .bytes _, p, h, ok => by
      cases p <;> simp only [Value.FillsTo] at h
      rwa [← h]
  | .list ws, p, h, ok => by
      cases p <;> simp only [Value.FillsTo] at h
      simp only [input] at ok ⊢
      split at ok
      · next found =>
          cases ok
          rw [listBytes_of_fillsTo h found]
      · cases ok
  | .container ws, p, h, ok => by
      cases p with
      | container ps =>
          simp only [Value.FillsTo] at h
          simp only [input] at ok ⊢
          obtain ⟨v, found, ok⟩ := inputOfData_of_fillsTo h.2.2.2 ok
          rw [inputOfData_of_get? found, ok]
      | _ => simp only [Value.FillsTo] at h
  | .none, _, _, ok | .int _, _, _, ok => by simp [input] at ok
  | .bool _, _, h, _ | .float _, _, h, _ | .str _, _, h, _ | .flags _, _, h, _
  | .lazyContainer _ _, _, h, _ | .lazyList _ _, _, h, _ => by simp only [Value.FillsTo] at h

theorem inputOfData_of_fillsTo {data : List UInt8} : ∀ {ws : List (String × Value)}
    {ps : Record Value}, Value.FillsToFields ws ps → inputOfData ws = .ok data →
    ∃ v, Record.get? ps "data" = some v ∧ input v = .ok data
  | [], _, _, ok => by simp [inputOfData] at ok
  | (key, w) :: rest, ps, h, ok => by
      simp only [Value.FillsToFields] at h
      rw [inputOfData] at ok
      split at ok
      · next own =>
          subst own
          obtain ⟨v, found, fills⟩ := h.1 rfl
          exact ⟨v, found, input_of_fillsTo fills ok⟩
      · exact inputOfData_of_fillsTo h.2 ok

end

theorem digest_of_fillsTo {hash : Hash} {w p digest : Value} (fills : w.FillsTo p)
    (ok : Checksum.digest hash w = .ok digest) : Checksum.digest hash p = .ok digest := by
  simp only [Checksum.digest] at ok ⊢
  cases covered : input w with
  | error fault =>
      rw [covered] at ok
      cases ok
  | ok data => rw [input_of_fillsTo fills covered, ← covered, ok]

theorem digest_cases {hash : Hash} {v w : Value} (h : digest hash v = .ok w) :
    ∃ d : Digest, w = d.value := by
  unfold digest at h
  cases covered : input v with
  | error fault =>
      rw [covered] at h
      cases h
  | ok data =>
      rw [covered] at h
      cases h
      exact ⟨_, rfl⟩

end Checksum

namespace Expr

/-- A step from what an expression denotes. -/
def step (base : Expr) : Value.Step → Expr
  | .entry name => .attr base name
  | .item i => .index base (.const (.int i))

/-- A field of a structure so many steps out, and steps to go from there. -/
def walk (j : Nat) (name : String) (steps : List Value.Step) : Expr :=
  steps.foldl step (.attr (.outward j) name)

/-- Over these frames the expression has this value, whatever else there is. -/
def Yields (x : Expr) (frames : List (Record Value)) (v : Value) : Prop :=
  ∀ (r : Resolver) (path : Path) (store : LazyStore),
    x.evaluate r ⟨frames, none, none⟩ path store = .ok v store

variable {r : Resolver} {scope : Scope} {path : Path} {store : LazyStore}

private theorem denote_walk {steps : List Value.Step} : ∀ {x : Expr} {v y : Value},
    denote r scope x store = .ok (.value v) store → v.reach steps = some y →
    denote r scope (steps.foldl step x) store = .ok (.value y) store := by
  induction steps with
  | nil =>
      intro x v y base found
      cases found
      exact base
  | cons next rest ih =>
      intro x v y base found
      cases next with
      | entry name =>
          cases v with
          | container fields =>
              obtain ⟨w, held, further⟩ := Option.bind_eq_some_iff.mp found
              have here : denote r scope (.attr x name) store = .ok (.value w) store := by
                simp [denote, member, Resolver.attr, bind, EStateM.bind, pure, EStateM.pure, base,
                  held]
              exact ih here further
          | _ => cases found
      | item i =>
          cases v with
          | list items =>
              obtain ⟨w, held, further⟩ := Option.bind_eq_some_iff.mp found
              have here : denote r scope (.index x (.const (.int i))) store =
                  .ok (.value w) store := by
                obtain ⟨within, rfl⟩ := List.getElem?_eq_some_iff.mp held
                have low : ¬ (i : Int) < 0 := by omega
                have inside : ¬ ((i : Int) < 0 ∨ (items.length : Int) ≤ i) := by omega
                have position : Resolver.position i items.length = .ok i := by
                  simp only [Resolver.position, if_neg low, if_neg inside, Int.toNat_natCast]
                simp [denote, atKey, Resolver.item, bind, EStateM.bind, pure, EStateM.pure, base,
                  Denoted.toValue, position, Lookup.ofExcept, within]
              exact ih here further
          | _ => cases found

private theorem walk_cases (j : Nat) (name : String) (steps : List Value.Step) :
    (∃ base last, walk j name steps = .attr base last) ∨
      ∃ base key, walk j name steps = .index base key := by
  rcases List.eq_nil_or_concat steps with rfl | ⟨front, last, rfl⟩
  · exact Or.inl ⟨_, _, rfl⟩
  · rw [walk, List.concat_eq_append, List.foldl_append]
    cases last with
    | entry last => exact Or.inl ⟨_, _, rfl⟩
    | item i => exact Or.inr ⟨_, _, rfl⟩

theorem yields_walk {j : Nat} {name : String} {steps : List Value.Step}
    {frames : List (Record Value)} {frame : Record Value} {v y : Value}
    (at_j : frames[j]? = some frame) (shown : Record.isPrivate name = false)
    (found : Record.get? frame name = some v) (reached : v.reach steps = some y) :
    (walk j name steps).Yields frames y := by
  intro r path store
  obtain ⟨within, rfl⟩ := List.getElem?_eq_some_iff.mp at_j
  have within' : j < (⟨frames, none, none⟩ : Scope).frames.length := within
  have base := @denote_outward r ⟨frames, none, none⟩ store j within'
  rw [List.drop_eq_getElem_cons within'] at base
  have entry : denote r ⟨frames, none, none⟩ (.attr (.outward j) name) store =
      .ok (.value v) store := by
    rw [denote_attr_frame base, Denoted.ofFrame_of_public shown, List.headD_cons, found]
    rfl
  have denoted : denote r ⟨frames, none, none⟩ (walk j name steps) store = .ok (.value y) store :=
    denote_walk entry reached
  rcases walk_cases j name steps with ⟨base, last, form⟩ | ⟨base, key, form⟩ <;>
  · rw [form] at denoted ⊢
    simp [evaluate, Lookup.atPath, bind, EStateM.bind, pure, EStateM.pure, denoted,
      Denoted.toValue]

end Expr

end BinaryFormat
