import BinaryFormat.Value.Equality
import Mathlib

/-!
# Agreement of values

A structure that was built holds what the caller gave it beside its fields, and
repeaters leave an index behind.  A value extends another one if it holds at
least the public entries of that value; two exact extensions of one value have
the same public content.
-/

namespace BinaryFormat

namespace Record

variable {α : Type}

theorem keys_visible (fields : Record α) :
    keys (visible fields) = (keys fields).filter fun key => !isPrivate key := by
  induction fields with
  | nil => rfl
  | cons entry rest ih =>
      cases h : isPrivate entry.1 <;> simp_all [visible, keys]

theorem length_visible {β : Type} {fields : Record α} {others : Record β}
    (distinct : (keys fields).Nodup) (distinct' : (keys others).Nodup)
    (h : ∀ key, isPrivate key = false → (key ∈ keys fields ↔ key ∈ keys others)) :
    (visible fields).length = (visible others).length := by
  have perm : (keys (visible fields)).Perm (keys (visible others)) := by
    rw [keys_visible, keys_visible]
    refine (List.perm_ext_iff_of_nodup (distinct.sublist List.filter_sublist)
      (distinct'.sublist List.filter_sublist)).mpr ?_
    intro key
    simp only [List.mem_filter, Bool.not_eq_true']
    constructor
    · rintro ⟨hk, hp⟩
      exact ⟨(h key hp).mp hk, hp⟩
    · rintro ⟨hk, hp⟩
      exact ⟨(h key hp).mpr hk, hp⟩
  have lengths := perm.length_eq
  rwa [keys, keys, List.length_map, List.length_map] at lengths

end Record

namespace Value

mutual

/-- The second value holds every public entry of the first one with a value that extends
it; if `exact`, it holds no other public entry. -/
def Extends (exact : Bool) : Value → Value → Prop
  | none, none => True
  | bool a, bool b => a = b
  | int a, int b => a = b
  | bytes a, bytes b => a = b
  | str a, str b => a = b
  | list vs, list ws => ExtendsItems exact vs ws
  | container fs, container gs =>
      (Record.keys gs).Nodup ∧ ExtendsFields exact fs gs ∧
        (exact = true → ∀ key, Record.isPrivate key = false →
          Record.get? fs key = .none → Record.get? gs key = .none)
  | _, _ => False

def ExtendsItems (exact : Bool) : List Value → List Value → Prop
  | [], [] => True
  | v :: vs, w :: ws => Extends exact v w ∧ ExtendsItems exact vs ws
  | _, _ => False

def ExtendsFields (exact : Bool) : List (String × Value) → Record Value → Prop
  | [], _ => True
  | (key, v) :: rest, gs =>
      (Record.isPrivate key = false → ∃ w, Record.get? gs key = some w ∧ Extends exact v w) ∧
        ExtendsFields exact rest gs

end

/-- Values that nothing but themselves extends. -/
def IsScalar : Value → Prop
  | none | bool _ | int _ | bytes _ | str _ => True
  | _ => False

private theorem eq_of_extends {exact : Bool} {v p : Value} (h : Extends exact v p)
    (scalar : v.IsScalar) : p = v := by
  cases v with
  | none | bool _ | int _ | bytes _ | str _ =>
      cases p <;> first
        | exact h.elim
        | rfl
        | exact congrArg _ (Eq.symm h)
  | _ => exact scalar.elim

theorem eq_of_extends_int {exact : Bool} {n : Int} {p : Value}
    (h : Extends exact (.int n) p) : p = .int n := eq_of_extends h trivial

theorem extends_int (exact : Bool) (n : Int) : Extends exact (.int n) (.int n) := by
  simp [Extends]

theorem ExtendsItems.length_eq {exact : Bool} {vs ws : List Value}
    (h : ExtendsItems exact vs ws) : vs.length = ws.length := by
  induction vs generalizing ws with
  | nil =>
      cases ws with
      | nil => rfl
      | cons w ws => exact absurd h (by simp [ExtendsItems])
  | cons v vs ih =>
      cases ws with
      | nil => exact absurd h (by simp [ExtendsItems])
      | cons w ws =>
          simp only [ExtendsItems] at h
          rw [List.length_cons, List.length_cons, ih h.2]

theorem extendsFields_iff {exact : Bool} {fs gs : List (String × Value)} :
    ExtendsFields exact fs gs ↔ ∀ key v, (key, v) ∈ fs → Record.isPrivate key = false →
      ∃ w, Record.get? gs key = some w ∧ Extends exact v w := by
  induction fs with
  | nil => simp [ExtendsFields]
  | cons entry rest ih =>
      obtain ⟨key, v⟩ := entry
      simp only [ExtendsFields, List.mem_cons, ih]
      constructor
      · rintro ⟨head, tail⟩ k x (h | h) hp
        · cases h
          exact head hp
        · exact tail k x h hp
      · intro h
        exact ⟨h key v (Or.inl rfl), fun k x hx => h k x (Or.inr hx)⟩

/-! ## Two exact extensions -/

private theorem mem_keys_of_exact {fs gs : Record Value} (each : ExtendsFields true fs gs)
    (only : ∀ key, Record.isPrivate key = false → Record.get? fs key = .none →
      Record.get? gs key = .none) {key : String} (hp : Record.isPrivate key = false) :
    key ∈ Record.keys gs ↔ key ∈ Record.keys fs := by
  constructor
  · intro h
    by_contra absent
    have missing := only key hp (Record.not_mem_keys_iff.mp absent)
    exact Record.not_mem_keys_iff.mpr missing h
  · intro h
    obtain ⟨v, found⟩ := Record.mem_keys_iff.mp h
    obtain ⟨w, other, -⟩ := extendsFields_iff.mp each key v (Record.mem_of_get?_eq_some found) hp
    exact Record.mem_keys_iff.mpr ⟨w, other⟩

theorem within_iff {fs gs : List (String × Value)} :
    within fs gs = true ↔ ∀ key v, (key, v) ∈ fs → Record.isPrivate key = false →
      ∃ w, Record.get? gs key = some w ∧ v.same w = true := by
  induction fs with
  | nil => simp [within]
  | cons entry rest ih =>
      obtain ⟨key, v⟩ := entry
      simp only [within, Bool.and_eq_true, Bool.or_eq_true, ih]
      constructor
      · rintro ⟨head, tail⟩ k x hx hp
        rcases List.mem_cons.mp hx with h | h
        · cases h
          rw [hp] at head
          cases found : Record.get? gs key with
          | none => simp [found] at head
          | some w =>
              rw [found] at head
              exact ⟨w, rfl, by simpa using head⟩
        · exact tail k x h hp
      · intro h
        refine ⟨?_, fun k x hx => h k x (List.mem_cons_of_mem _ hx)⟩
        cases hp : Record.isPrivate key with
        | true => exact Or.inl rfl
        | false =>
            obtain ⟨w, found, eq⟩ := h key v List.mem_cons_self hp
            right
            rw [found]
            exact eq

mutual

/-- Two exact extensions of one value have the same public content. -/
theorem same_of_extends : ∀ {v p w : Value}, Extends true v p → Extends true v w →
    p.same w = true
  | list vs, list ps, list ws, hp, hw => by
      simp only [Extends] at hp hw
      simp only [same]
      exact sameItems_of_extends hp hw
  | container fs, container ps, container ws, hp, hw => by
      simp only [Extends, true_implies] at hp hw
      obtain ⟨distinct, each, only⟩ := hp
      obtain ⟨distinct', each', only'⟩ := hw
      have names (key : String) (shown : Record.isPrivate key = false) :
          key ∈ Record.keys ps ↔ key ∈ Record.keys ws :=
        (mem_keys_of_exact each only shown).trans (mem_keys_of_exact each' only' shown).symm
      have members := same_of_extendsFields each each'
      have contents : within ps ws = true := by
        refine within_iff.mpr fun key x hx shown => ?_
        have known := (mem_keys_of_exact each only shown).mp (List.mem_map_of_mem hx)
        obtain ⟨v, found⟩ := Record.mem_keys_iff.mp known
        obtain ⟨y, hy, z, hz, eq⟩ := members key v (Record.mem_of_get?_eq_some found) shown
        rw [Record.get?_eq_some_of_mem distinct hx] at hy
        cases hy
        exact ⟨z, hz, eq⟩
      simp [same, Record.length_visible distinct distinct' names, contents]
  | none, p, w, hp, hw | bool _, p, w, hp, hw | int _, p, w, hp, hw | bytes _, p, w, hp, hw
  | str _, p, w, hp, hw => by
      obtain rfl := eq_of_extends hp trivial
      obtain rfl := eq_of_extends hw trivial
      simp only [same, beq_self_eq_true]

theorem sameItems_of_extends : ∀ {vs ps ws : List Value}, ExtendsItems true vs ps →
    ExtendsItems true vs ws → sameItems ps ws = true
  | [], [], [], _, _ => rfl
  | v :: vs, p :: ps, w :: ws, hp, hw => by
      simp only [ExtendsItems] at hp hw
      simp [sameItems, same_of_extends hp.1 hw.1, sameItems_of_extends hp.2 hw.2]

theorem same_of_extendsFields : ∀ {fs ps ws : List (String × Value)},
    ExtendsFields true fs ps → ExtendsFields true fs ws →
    ∀ key v, (key, v) ∈ fs → Record.isPrivate key = false →
      ∃ y, Record.get? ps key = some y ∧
        ∃ z, Record.get? ws key = some z ∧ y.same z = true
  | [], _, _, _, _ => by simp
  | (first, v) :: rest, ps, ws, hp, hw => by
      intro key x hx shown
      simp only [ExtendsFields] at hp hw
      rcases List.mem_cons.mp hx with h | h
      · cases h
        obtain ⟨y, hy, ey⟩ := hp.1 shown
        obtain ⟨z, hz, ez⟩ := hw.1 shown
        exact ⟨y, hy, z, hz, same_of_extends ey ez⟩
      · exact same_of_extendsFields hp.2 hw.2 key x h shown

end

mutual

/-- Of two extensions of one value, the exact one is extended by the other. -/
theorem extends_of_exact : ∀ {v p w : Value}, v.Extends true p → v.Extends false w →
    p.Extends false w
  | list vs, list ps, list ws, hp, hw => by
      simp only [Extends] at hp hw ⊢
      exact extendsItems_of_exact hp hw
  | container fs, container ps, container ws, hp, hw => by
      simp only [Extends, true_implies] at hp hw ⊢
      obtain ⟨distinct, each, only⟩ := hp
      refine ⟨hw.1, extendsFields_iff.mpr fun key x hx shown => ?_, by simp⟩
      have known := (mem_keys_of_exact each only shown).mp (List.mem_map_of_mem hx)
      obtain ⟨v, found⟩ := Record.mem_keys_iff.mp known
      obtain ⟨y, hy, z, hz, ext⟩ := extendsFields_of_exact each hw.2.1 key v
        (Record.mem_of_get?_eq_some found) shown
      rw [Record.get?_eq_some_of_mem distinct hx] at hy
      cases hy
      exact ⟨z, hz, ext⟩
  | none, p, w, hp, hw | bool _, p, w, hp, hw | int _, p, w, hp, hw | bytes _, p, w, hp, hw
  | str _, p, w, hp, hw => by
      obtain rfl := eq_of_extends hp trivial
      exact hw

theorem extendsItems_of_exact : ∀ {vs ps ws : List Value}, ExtendsItems true vs ps →
    ExtendsItems false vs ws → ExtendsItems false ps ws
  | [], [], [], _, _ => by simp [ExtendsItems]
  | v :: vs, p :: ps, w :: ws, hp, hw => by
      simp only [ExtendsItems] at hp hw ⊢
      exact ⟨extends_of_exact hp.1 hw.1, extendsItems_of_exact hp.2 hw.2⟩

theorem extendsFields_of_exact : ∀ {fs ps ws : List (String × Value)},
    ExtendsFields true fs ps → ExtendsFields false fs ws →
    ∀ key v, (key, v) ∈ fs → Record.isPrivate key = false →
      ∃ y, Record.get? ps key = some y ∧
        ∃ z, Record.get? ws key = some z ∧ y.Extends false z
  | [], _, _, _, _ => by simp
  | (first, v) :: rest, ps, ws, hp, hw => by
      intro key x hx shown
      simp only [ExtendsFields] at hp hw
      rcases List.mem_cons.mp hx with h | h
      · cases h
        obtain ⟨y, hy, ey⟩ := hp.1 shown
        obtain ⟨z, hz, ez⟩ := hw.1 shown
        exact ⟨y, hy, z, hz, extends_of_exact ey ez⟩
      · exact extendsFields_of_exact hp.2 hw.2 key x h shown

end

end Value

end BinaryFormat
