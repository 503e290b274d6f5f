import BinaryFormat.Proofs.Growth.Codecs

/-!
# What repetitions and choices fill

Elements lie one behind the other, a branch fills what it falls on, and filling bytes fill what is
left of a block.
-/

namespace BinaryFormat

namespace Codec

open Run Sizes

variable {params : Record Value} {depth : Nat} {t : Traits} {base : State} {P : Nat → Prop}
  {e : Engine} {c : Codec} {j k : Option Nat} {p : Nat}

/-! ### Repetition -/

private theorem fills_buildElements {of : Part} (h : of.codec.Filling params t j)
    (moving : ¬ t.still)
    (ruled : base.context.Ruled params depth) (path : Path) (i p : Nat) (items : List Value) :
    (buildElements of path i items).Fills params t base (· = p)
      fun _ => Reaches (times items.length j) p := by
  induction items generalizing i p with
  | nil =>
      refine fills_pure ?_
      rintro _ rfl
      refine ⟨Nat.le_refl _, fun n known => ?_⟩
      cases j <;> simp [times] at known
      omega
  | cons v rest ih =>
      have sum : ∀ n, times (rest.length + 1) j = some n →
          plus j (times rest.length j) = some n := by
        intro n known
        cases j <;> simp [times, plus] at known ⊢
        rw [← known, Nat.succ_mul, Nat.add_comm]
      rw [buildElements]
      refine .bind (fills_noteIndex moving) fun _ => ?_
      have element := h.part v (path.element i) p ruled (Context.anchors_element path i)
      exact Fills.mono (fills_trans element fun _ q =>
        .bind (ih (i + 1) q) fun _ => fills_pure fun _ => id) (fun _ => id)
          fun _ _ reached => reached.mono sum

theorem filling_array {count : Expr} (settled : count.Settled) {of : Part} (guarded : t.guarded)
    (moving : ¬ t.still) (h : of.codec.Filling params t j) (discard : Bool) :
    (array e count of discard).Filling params t ((count.sizeIn params).bind fun count =>
      (times count j).bind fitted) := by
  refine filling_of (fun _ _ => rfl) fun v path depth base p ruled _ =>
    e.fills_evalSize settled ruled guarded fun n known => .bind e.fills_listInput fun items =>
      fills_guard fun same => .bind (fills_buildElements h moving ruled path 0 p items)
        fun built => fills_pure fun q reached => ?_
  rw [not_not.mp same] at reached
  rw [known]
  exact reached.fitted

private theorem fills_bounds {least most : Expr} (settled : least.Settled) (settled' : most.Settled)
    (guarded : t.guarded) (ruled : base.context.Ruled params depth) (path : Path) :
    (bounds e least (some most) path).Fills params t base P fun found q =>
      (least.sizeIn params = some found.1 ∧ most.sizeIn params = some found.2) ∧ P q :=
  e.fills_evalSize settled ruled guarded fun _ known =>
    e.fills_evalSize settled' ruled guarded fun _ known' =>
      fills_guard fun _ => fills_pure fun _ start => ⟨⟨known, known'⟩, start⟩

theorem filling_range {least most : Expr} (settled : least.Settled) (settled' : most.Settled)
    {of : Part} (guarded : t.guarded) (moving : ¬ t.still) (h : of.codec.Filling params t j)
    (discard : Bool) :
    (range e least most of discard).Filling params t ((least.sizeIn params).bind fun least =>
      (most.sizeIn params).bind fun most =>
        if least ≠ most then none else (times least j).bind fitted) := by
  refine filling_of (fun _ _ => rfl) fun v path depth base p ruled _ =>
    .bind (fills_bounds settled settled' guarded ruled path) fun found =>
      fills_assuming fun known => .bind e.fills_listInput fun items => fills_guard fun within =>
        .bind (fills_buildElements h moving ruled path 0 p items) fun built =>
          fills_pure fun q reached => ?_
  refine reached.mono fun n same => ?_
  rw [known.1, known.2] at same
  simp only [Option.bind_some] at same
  split at same
  · cases same
  · have count : items.length = found.1 := by omega
    rw [count]
    exact (bind_fitted.mp same).1

/-! ### Branches -/

theorem filling_branch {condition : Expr} (settled : condition.Settled) (guarded : t.guarded)
    {yes no : Codec} (h : yes.Filling params t j) (h' : no.Filling params t k) :
    (branch e condition yes no).Filling params t ((condition.valueIn params).bind fun v =>
      if v.holds then j else k) := by
  refine filling_of (fun _ _ => rfl) fun v path depth base p ruled anchored =>
    e.fills_evalHolds settled ruled guarded fun w value => ?_
  rw [value]
  dsimp only [Option.bind_some]
  split
  · exact h.build v path depth base p ruled anchored
  · exact h'.build v path depth base p ruled anchored

theorem filling_switch {key : Expr} (plain : key.Plain params) (guarded : t.guarded)
    {cases : List (Value × Part)} (keys : ∀ c ∈ cases, c.1.Eager) {fallback : Option Part}
    {chosen : Option Nat}
    (known : ∀ v part, key.valueIn params = some v → caseOf v cases fallback = some part →
      part.codec.Filling params t chosen) :
    (switch e key cases fallback).Filling params t chosen := by
  refine filling_of (fun _ _ => rfl) fun v path depth base p ruled anchored =>
    fills_settled ruled guarded
      (x := fun ctx => chooseCase e.resolver key cases fallback ctx.scope path)
      (fun _ ruled => settles_chooseCase e.resolver plain keys fallback ruled path)
      fun part found => ?_
  obtain ⟨w, value, found⟩ := Option.bind_eq_some_iff.mp found
  exact (known w part value found).build v path depth base p ruled anchored

/-! ### Padding -/

private theorem fills_remainder {total used : Nat} {path : Path} :
    (remainder total used path).Fills params t base P
      fun rest q => (used ≤ total ∧ rest = total - used) ∧ P q :=
  fills_ite (fun within => fills_pure fun _ start => ⟨⟨within, rfl⟩, start⟩) fun _ => fills_fail

private theorem fills_writeFill {fill : Fill} {count : Nat} {path : Path} :
    (writeFill fill count path).Fills params t base (· = p) fun _ => (· = p + count) := by
  have length : (List.replicate count fill.pattern).length = count := List.length_replicate
  exact Fills.mono fills_write (fun _ => id) fun _ _ there => by rwa [length] at there

theorem filling_padded {length : Expr} (settled : length.Settled) (guarded : t.guarded)
    (h : c.Filling params t j) (fill : Fill) :
    (padded e length c fill).Filling params t (length.sizeIn params) := by
  refine filling_of (fun _ _ => rfl) fun v path depth base p ruled anchored =>
    e.fills_evalSize settled ruled guarded fun n known => fills_tell ?_
  rintro p rfl
  refine .bind (h.build v path depth base p ruled anchored) fun w => fills_tell fun q reached =>
    .bind fills_remainder fun rest => fills_assuming fun fits => .bind fills_writeFill fun _ =>
      fills_pure fun r there => ?_
  obtain ⟨within, rfl⟩ := fits
  rw [known, there]
  rw [Size.sub_of_le reached.1] at within ⊢
  exact reached.fill within

private theorem fills_evalModulus {modulus : Expr} (settled : modulus.Settled) (guarded : t.guarded)
    (ruled : base.context.Ruled params depth) {path : Path} :
    (evalModulus e modulus path).Fills params t base P
      fun m q => (modulus.sizeIn params = some m ∧ m ≠ 0) ∧ P q :=
  e.fills_evalSize settled ruled guarded fun _ known => fills_guard fun positive =>
    fills_pure fun _ start => ⟨⟨known, positive⟩, start⟩

theorem filling_aligned {modulus : Expr} (settled : modulus.Settled) (guarded : t.guarded)
    (h : c.Filling params t j) (fill : Fill) :
    (aligned e modulus c fill).Filling params t ((modulus.sizeIn params).bind fun m =>
      (j.map fun used => used + toMultiple used (max m 1)).bind fitted) := by
  refine filling_of (fun _ _ => rfl) fun v path depth base p ruled anchored =>
    .bind (fills_evalModulus settled guarded ruled) fun m => fills_assuming fun modulus =>
      fills_tell ?_
  rintro p rfl
  refine .bind (h.build v path depth base p ruled anchored) fun w => fills_tell fun q reached =>
    .bind fills_writeFill fun _ => fills_pure fun r there => ?_
  obtain ⟨known, positive⟩ := modulus
  rw [known, there, Size.sub_of_le reached.1]
  exact (reached.align positive).fitted

end Codec

end BinaryFormat
