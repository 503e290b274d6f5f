import BinaryFormat.Proofs.Attempts
import BinaryFormat.Proofs.Frames.Choices
import BinaryFormat.Proofs.Growth.Patches
import BinaryFormat.Proofs.Number

/-!
# What codecs fill

Building a component whose size is settled fills as much of a stream as its size
says: directly, through buffers that are copied into the stream, over reserved
bytes that are patched later, and through views.
-/

namespace BinaryFormat

variable {params : Record Value} {depth : Nat} {t : Traits} {base : State} {P : Nat → Prop}
  {α : Type} {R : α → Nat → Prop}

/-! ## Expressions and inputs -/

namespace Engine

variable (e : Engine)

theorem fills_eval {x : Expr} {path : Path} :
    (e.eval x path).Fills params t base P fun _ => P :=
  fun s => Run.fills_lookup (x := x.evaluate e.resolver s.context.scope path) s

private theorem fills_evalOver {x : Expr} {object : Value} {path : Path} :
    (e.evalOver x object path).Fills params t base P fun _ => P :=
  fun s => Run.fills_lookup
    (x := x.evaluate e.resolver { s.context.scope with object := some object } path) s

private theorem fills_holds {x : Expr} {path : Path} :
    (e.evalHolds x path).Fills params t base P fun _ => P :=
  fun s => Run.fills_lookup (x := x.evaluateHolds e.resolver s.context.scope path) s

private theorem fills_equal {a b : Value} : (e.equal a b).Fills params t base P fun _ => P :=
  Run.fills_lookup

theorem same_eval (x : Expr) (path : Path) (s : State) :
    ((e.eval x path).after s).stream = s.stream ∧
      ((e.eval x path).after s).context = s.context := by
  have run : e.eval x path s = Run.lookup (x.evaluate e.resolver s.context.scope path) s := rfl
  rw [Run.after, run, Run.lookup]
  cases x.evaluate e.resolver s.context.scope path s.store <;> exact ⟨rfl, rfl⟩

theorem same_digest (hash : Hash) (data : Expr) (path : Path) (s : State) :
    (Run.after (do Run.ofExcept path (Checksum.digest hash (← e.eval data path))) s).stream =
        s.stream ∧
      (Run.after (do Run.ofExcept path (Checksum.digest hash (← e.eval data path))) s).context =
        s.context := by
  have evaluated := e.same_eval data path s
  unfold Run.after at evaluated ⊢
  cases first : e.eval data path s with
  | error failure s₁ =>
      rw [first] at evaluated
      rw [Run.bind_of_error first]
      exact evaluated
  | ok input s₁ =>
      rw [first] at evaluated
      rw [Run.bind_of_ok first]
      cases Checksum.digest hash input <;> exact evaluated

theorem fills_evalSize {x : Expr} (settled : x.Settled)
    (ruled : base.context.Ruled params depth) (guarded : t.guarded) {path : Path}
    {f : Nat → Run α}
    (later : ∀ n, x.sizeIn params = some n → (f n).Fills params t base P R) :
    (e.evalSize x path >>= f).Fills params t base P R :=
  Run.fills_settled ruled guarded (x := fun ctx => x.evaluateSize e.resolver ctx.scope path)
    (fun _ ruled => Expr.settles_evaluateSize settled ruled e.resolver path) later

theorem fills_evalHolds {x : Expr} (settled : x.Settled)
    (ruled : base.context.Ruled params depth) (guarded : t.guarded) {path : Path}
    {f : Bool → Run α}
    (later : ∀ v, x.valueIn params = some v → (f v.holds).Fills params t base P R) :
    (e.evalHolds x path >>= f).Fills params t base P R := by
  refine Run.fills_settled ruled guarded
    (x := fun ctx => x.evaluateHolds e.resolver ctx.scope path)
    (fun _ ruled => Expr.settles_evaluateHolds settled ruled e.resolver path) fun holds known => ?_
  obtain ⟨v, value, rfl⟩ := Option.map_eq_some_iff.mp known
  exact later v value

private theorem fills_containerInput {v : Value} {path : Path} :
    (e.containerInput v path).Fills params t base P fun _ => P := by
  cases v with
  | container fields | flags fields => exact Run.fills_pure fun _ => id
  | none => exact Run.fills_pure fun _ => id
  | lazyContainer handle names =>
      refine .bind (Run.fills_lookup (P := P)) fun forced => ?_
      cases forced <;> exact Run.fills_pure fun _ => id
  | _ => exact Run.fills_fail

theorem fills_listInput {v : Value} {path : Path} :
    (e.listInput v path).Fills params t base P fun _ => P := by
  cases v with
  | list items | bytes data => exact Run.fills_pure fun _ => id
  | lazyList handle count =>
      refine .bind (Run.fills_lookup (P := P)) fun forced => ?_
      cases forced <;> exact Run.fills_pure fun _ => id
  | _ => exact Run.fills_fail

end Engine

/-- Building fills as much as the size says. -/
structure Codec.Filling (params : Record Value) (t : Traits) (c : Codec) (known : Option Nat) :
    Prop where
  build : ∀ v path depth base p, State.context base |>.Ruled params depth →
    base.context.Anchors t path →
    (c.build v path).Fills params t base (· = p) fun _ => Sizes.Reaches known p
  buildInline : ∀ input path depth base p, State.context base |>.Ruled params (depth + 1) →
    (c.buildInline input path).Fills params t.loose base (· = p)
      fun _ => Sizes.Reaches known p

namespace Codec

open Run Sizes

variable {e : Engine} {c : Codec} {j k : Option Nat} {p : Nat}

theorem Filling.fitted (h : c.Filling params t j) : c.Filling params t (j.bind fitted) where
  build v path depth base p ruled anchored :=
    (h.build v path depth base p ruled anchored).mono (fun _ => id) fun _ _ => Reaches.fitted
  buildInline input path depth base p ruled :=
    (h.buildInline input path depth base p ruled).mono (fun _ => id) fun _ _ => Reaches.fitted

theorem filling_of {c : Codec} {known : Option Nat}
    (inline : ∀ input path, c.buildInline input path = Run.fail (.misshapen .embedding) path)
    (build : ∀ v path depth base p, State.context base |>.Ruled params depth →
      base.context.Anchors t path →
      (c.build v path).Fills params t base (· = p) fun _ => Reaches known p) :
    c.Filling params t known where
  build := build
  buildInline input path depth base p _ := by
    rw [inline]
    exact fills_fail

theorem Filling.part {of : Part} (h : of.codec.Filling params t j) (v : Value) (path : Path)
    (p : Nat) (ruled : base.context.Ruled params depth) (anchored : base.context.Anchors t path) :
    (of.build v path).Fills params t base (· = p) fun _ => Reaches j p :=
  (h.build v path depth base p ruled anchored).tagged

theorem fills_units {units : List UInt8} {path : Path} {known : Option Nat} {n : Nat} {a : α}
    (same : known = some n) (length : units.length = n) :
    (do
      Run.write units path
      return a).Fills params t base (· = p) fun _ => Reaches known p := by
  refine .bind fills_write fun _ => fills_pure ?_
  rintro _ rfl
  rw [same, length]
  exact reaches_add p n

/-! ### Components without components -/

theorem filling_bytes (guarded : t.guarded) {length : Expr} (settled : length.Settled) :
    (bytes e length).Filling params t (length.sizeIn params) := by
  refine filling_of (fun _ _ => rfl) fun v path depth base p ruled _ =>
    e.fills_evalSize settled ruled guarded fun n known => ?_
  cases v with
  | bytes data => exact fills_guard fun same => fills_units known (not_not.mp same)
  | _ => exact fills_fail

theorem filling_integer (guarded : t.guarded) {width : Expr} (settled : width.Settled)
    (signed : Bool) (endian : Endian) :
    (integer e width signed endian).Filling params t (width.sizeIn params) := by
  refine filling_of (fun _ _ => rfl) fun v path depth base p ruled _ =>
    e.fills_evalSize settled ruled guarded fun n known => .bind fills_ofExcept fun _ =>
      fills_assuming fun _ => .bind fills_ofExcept fun _ => fills_assuming fun _ =>
        .bind fills_ofExcept fun pattern => fills_assuming fun _ => fills_units known ?_
  rw [Integer.length_inOrder, Bytes.length_ofNat]

private theorem length_swapGroups {units swapped : List UInt8}
    (h : Integer.swapGroups units = .ok swapped) : swapped.length = units.length := by
  have all : ∀ most (data : List UInt8), data.length ≤ most →
      ((Bytes.chunksUpTo 8 most data).map List.length).sum = data.length := by
    intro most
    induction most with
    | zero =>
        intro data none
        rw [List.length_eq_zero_iff.mp (Nat.le_zero.mp none)]
        rfl
    | succ most ih =>
        intro data enough
        cases data with
        | nil => rfl
        | cons b rest =>
            have later := ih ((b :: rest).drop 8) (by
              rw [List.length_drop, List.length_cons]
              rw [List.length_cons] at enough
              omega)
            simp only [Bytes.chunksUpTo, List.isEmpty_cons, Bool.false_eq_true, if_false,
              List.map_cons, List.sum_cons, later, List.length_take, List.length_drop]
            omega
  unfold Integer.swapGroups at h
  split at h
  · cases h
  · cases h
    rw [List.length_flatten, List.map_reverse, List.sum_reverse]
    exact all units.length units (Nat.le_refl _)

theorem filling_bitInteger (guarded : t.guarded) {width : Expr} (settled : width.Settled)
    (signed swapped : Bool) :
    (bitInteger e width signed swapped).Filling params t (width.sizeIn params) := by
  refine filling_of (fun _ _ => rfl) fun v path depth base p ruled _ =>
    e.fills_evalSize settled ruled guarded fun n known => .bind fills_ofExcept fun _ =>
      fills_assuming fun _ => .bind fills_ofExcept fun m => fills_assuming fun _ =>
        .bind fills_ofExcept fun pattern => fills_assuming fun _ => ?_
  have length := Bits.length_ofNat pattern n
  cases swapped with
  | false => exact fills_units known length
  | true =>
      refine .bind fills_ofExcept fun units => fills_assuming fun same => ?_
      exact fills_units known ((length_swapGroups same).trans length)

theorem filling_flag : flag.Filling params t (some 1) := by
  refine filling_of (fun _ _ => rfl) fun v _ _ _ _ _ _ => ?_
  cases v with
  | bool b | int n => exact fills_units rfl rfl
  | _ => exact .bind (Q := fun _ _ => False) fills_fail fun _ _ _ _ => False.elim

theorem length_padTo (unit : List UInt8) (room : Nat) (side : PadSide) (data : List UInt8) :
    (TextField.padTo unit room side data).length = room := by
  simp only [TextField.padTo, List.length_append, List.length_take, List.length_replicate]
  omega

theorem filling_fixedText (guarded : t.guarded) {length : Expr} (settled : length.Settled)
    (encoding : Encoding) (pad : Char) (side : PadSide) (trim : Option TrimEnd) :
    (fixedText e length encoding pad side trim).Filling params t (length.sizeIn params) :=
  filling_of (fun _ _ => rfl) fun _ _ _ _ _ ruled _ =>
    e.fills_evalSize settled ruled guarded fun n known => .bind fills_ofExcept fun unit =>
      fills_assuming fun _ => .bind fills_ofExcept fun _ => fills_assuming fun _ =>
        .bind fills_ofExcept fun data => fills_assuming fun _ =>
          fills_units known (length_padTo unit n side data)

theorem filling_pass : pass.Filling params t (some 0) :=
  filling_of (fun _ _ => rfl) fun _ _ _ _ _ _ _ => fills_pure fun _ => reaches_here

theorem filling_tell : Codec.tell.Filling params t (some 0) :=
  filling_of (fun _ _ => rfl) fun _ _ _ _ _ _ _ => fills_tell fun _ same =>
    fills_pure fun _ here => reaches_here (here.trans same)

theorem filling_computed (expr : Expr) : (computed e expr).Filling params t (some 0) :=
  filling_of (fun _ _ => rfl) fun _ _ _ _ _ _ _ =>
    e.fills_eval.mono (fun _ => id) fun _ _ => reaches_here

theorem filling_check (condition : Expr) : (check e condition).Filling params t (some 0) :=
  filling_of (fun _ _ => rfl) fun _ _ _ _ _ _ _ => .bind e.fills_holds fun _ =>
    fills_ite (fun _ => fills_pure fun _ => reaches_here) fun _ => fills_fail

theorem filling_peek (of : Part) : (peek of).Filling params t (some 0) :=
  filling_of (fun _ _ => rfl) fun _ _ _ _ _ _ _ => fills_pure fun _ => reaches_here

theorem filling_padding (guarded : t.guarded) {length : Expr} (settled : length.Settled)
    (fill : Fill) : (padding e length fill).Filling params t (length.sizeIn params) :=
  filling_of (fun _ _ => rfl) fun _ _ _ _ _ ruled _ =>
    e.fills_evalSize settled ruled guarded fun _ known =>
      fills_units known List.length_replicate

/-! ### Values behind others -/

theorem filling_constant (h : c.Filling params t j) (value : Value) :
    (constant e c value).Filling params t j :=
  filling_of (fun _ _ => rfl) fun _ => h.build value

theorem filling_fallback (h : c.Filling params t j) (value : Value) :
    (fallback c value).Filling params t j :=
  filling_of (fun _ _ => rfl) fun _ => h.build _

theorem filling_rebuild {of : Part} (guarded : t.guarded) (computable : Computable t of)
    (sized : of.codec.Measured params j) (prompt : of.format.Prompt params)
    (h : of.codec.Filling params t j) (expr : Expr) :
    (rebuild e of expr).Filling params t j := by
  refine filling_of (fun _ _ => rfl) fun v path depth base p ruled anchored =>
    .bind (fills_outcome e.keeps_eval (e.same_eval expr path)) fun found => ?_
  cases found with
  | ok value => exact h.build value path depth base p ruled anchored
  | error failure =>
      refine fills_ite (fun _ => ?_) fun _ => fills_throw
      refine .bind (fills_outcome of.codec.keeps_sizeNow fun s =>
        (context_sizeNow of.codec path s).symm) fun size => ?_
      cases size with
      | error failure => exact fills_throw
      | ok n =>
          exact fills_reserve sized prompt ruled guarded computable.some computable.within
            computable.simple anchored

theorem filling_checksum {of : Part} (guarded : t.guarded) (computable : Computable t of)
    (sized : of.codec.Measured params j) (prompt : of.format.Prompt params)
    (h : of.codec.Filling params t j) (hash : Hash) (data : Expr) :
    (checksum e of hash data).Filling params t j := by
  refine filling_of (fun _ _ => rfl) fun v path depth base p ruled anchored =>
    .bind (fills_outcome (.bind e.keeps_eval fun _ => keeps_ofExcept)
      (e.same_digest hash data path))
      fun found => ?_
  cases found with
  | ok digest => exact h.build digest path depth base p ruled anchored
  | error failure =>
      exact fills_ite (fun _ => fills_reserve sized prompt ruled guarded computable.some
        computable.within computable.simple anchored) fun _ => fills_throw

private theorem fills_isAmong {v : Value} (values : List Value) :
    (isAmong e v values).Fills params t base P fun _ => P := by
  induction values with
  | nil => exact fills_pure fun _ => id
  | cons other rest ih =>
      exact .bind e.fills_equal fun same => fills_ite (fun _ => fills_pure fun _ => id) fun _ => ih

private theorem fills_validate (rule : Rule) {v : Value} {path : Path} :
    (validate e rule v path).Fills params t base P fun _ => P := by
  cases rule with
  | satisfies predicate =>
      exact .bind e.fills_evalOver fun _ => fills_ite
        (fun _ => .bind fills_lookup fun _ => fills_fail) fun _ => fills_pure fun _ => id
  | oneOf allowed =>
      exact .bind (fills_isAmong allowed) fun _ => fills_ite
        (fun _ => .bind fills_lookup fun _ => fills_fail) fun _ => fills_pure fun _ => id
  | noneOf denied =>
      exact .bind (fills_isAmong denied) fun _ => fills_ite
        (fun _ => .bind fills_lookup fun _ => fills_fail) fun _ => fills_pure fun _ => id

theorem filling_validated (h : c.Filling params t j) (rule : Rule) :
    (validated e c rule).Filling params t j :=
  filling_of (fun _ _ => rfl) fun v path depth base p ruled anchored =>
    .bind (fills_validate rule) fun _ => h.build v path depth base p ruled anchored

private theorem fills_shown {x : Run Value} {v : Value} {p : Nat}
    (h : x.Fills params t base (· = p) fun _ => Reaches j p) :
    (x >>= fun _ => pure v).Fills params t base (· = p) fun _ => Reaches j p :=
  .bind h fun _ => fills_pure fun _ => id

theorem filling_labelled (h : c.Filling params t j) (labels : List (String × Int))
    (unlabelled : Unlabelled) : (labelled c labels unlabelled).Filling params t j := by
  refine filling_of (fun _ _ => rfl) fun v path depth base p ruled anchored => ?_
  have shown := fun n : Int =>
    fills_shown (v := v) (h.build (.int n) path depth base p ruled anchored)
  cases v with
  | str label =>
      unfold labelled
      dsimp only
      cases numberOf? labels label with
      | none => exact .bind (Q := fun _ => (· = p)) fills_fail shown
      | some n => exact .bind (fills_pure fun _ => id) shown
  | int n => exact .bind (fills_pure fun _ => id) shown
  | _ => exact .bind (Q := fun _ => (· = p)) fills_fail shown

private theorem fills_findPair {v : Value} (table : List (Value × Value)) :
    (findPair e v table).Fills params t base P fun _ => P := by
  induction table with
  | nil => exact fills_pure fun _ => id
  | cons entry rest ih =>
      exact .bind e.fills_equal fun same => fills_ite (fun _ => fills_pure fun _ => id) fun _ => ih

theorem filling_mapped (h : c.Filling params t j) (table : List (Value × Value)) :
    (mapped e c table).Filling params t j := by
  refine filling_of (fun _ _ => rfl) fun v path depth base p ruled anchored =>
    .bind (fills_findPair _) fun found => ?_
  cases found with
  | some raw => exact fills_shown (h.build raw path depth base p ruled anchored)
  | none => exact .bind fills_lookup fun _ => fills_fail

theorem filling_flagSet (h : c.Filling params t j) (flags : List (String × Nat)) (strict : Bool) :
    (flagSet c flags strict).Filling params t j :=
  filling_of (fun _ _ => rfl) fun _ path depth base p ruled anchored =>
    .bind fills_ofExcept fun raw => fills_assuming fun _ => fills_guard fun _ =>
      fills_shown (h.build (.ofNat raw) path depth base p ruled anchored)

/-! ### Structures -/

/-- Components with what they fill. -/
abbrev FillingAll (params : Record Value) (t : Traits) : List Part → List (Option Nat) → Prop :=
  List.Forall₂ fun p known => p.codec.Filling params t known

variable {parts : List Part} {knowns : List (Option Nat)}

theorem fills_trans {β : Type} {x : Run α} {f : α → Run β} {p : Nat}
    (hx : x.Fills params t base (· = p) fun _ => Reaches j p)
    (hf : ∀ a q, (f a).Fills params t base (· = q) fun _ => Reaches k q) :
    (x >>= f).Fills params t base (· = p) fun _ => Reaches (plus j k) p :=
  hx.bind fun a => fills_from fun q first => (hf a q).mono (fun _ => id) fun _ _ => first.trans

private theorem fills_fieldInput {input : Record Value} {field : Part} {name : String}
    {path : Path} :
    (fieldInput input field name path).Fills params t base P fun _ => P := by
  unfold fieldInput
  cases Record.get? input name with
  | none => exact fills_ite (fun _ => fills_pure fun _ => id) fun _ => fills_fail
  | some v => exact fills_pure fun _ => id

private theorem fills_buildFields (h : FillingAll params t.loose parts knowns)
    (input : Record Value)
    (path : Path) (p : Nat) (ruled : base.context.Ruled params (depth + 1)) :
    (buildFields input path parts).Fills params t.loose base (· = p)
      fun _ => Reaches (total knowns) p := by
  have inner := ruled.inner
  induction h generalizing p with
  | nil => exact fills_pure fun _ => reaches_here
  | @cons field known rest others first _ ih =>
      have built := fun v path p => first.part v path p ruled (Context.anchors_inside inner path)
      unfold buildFields
      refine fills_ite (fun _ => ?_) fun _ => ?_
      · exact fills_trans (first.buildInline input path depth base p ruled) fun _ q => ih q
      · cases field.name? with
        | none => exact fills_trans (built _ path p) fun _ q => ih q
        | some name =>
            refine .bind fills_fieldInput fun value => fills_trans (built value _ p) fun w q => ?_
            exact .bind (fills_insert inner id) fun _ => ih q

/-- A frame resolves what it can of its patches before it is left. -/
private theorem fills_resolvePending (he : e.Steady) (fills : e.Filling params)
    (guarded : t.guarded)
    (ruled : base.context.Ruled params (depth + 1)) (fresh : base.context.top.deferred = []) :
    e.resolvePending.Fills params t.loose base P fun _ => P := by
  have mark : base.context.mark = 0 := by rw [Context.mark, fresh]; rfl
  have resolved := Engine.fills_resolveSince (t := t.loose) (P := P) he fills false ruled guarded id
    (Or.inr ruled.inner)
  rwa [mark] at resolved

theorem filling_struct (he : e.Steady) (fills : e.Filling params) (guarded : t.guarded)
    (h : FillingAll params t.loose parts knowns) (overwrite : Bool) :
    (struct e parts overwrite).Filling params t (total knowns) where
  build _ path _ _ p ruled _ := .bind e.fills_containerInput fun input =>
    .bind (.inFrame fun _ grown _ =>
      .bind (fills_buildFields h input path p ((ruled_of_grows ruled grown guarded).push input))
        fun _ => fills_resolvePending he fills guarded
          ((ruled_of_grows ruled grown guarded).push input) rfl)
      fun _ => fills_pure fun _ => id
  buildInline input path _ _ p ruled := fills_buildFields h input path p ruled

/-- Pairs of items and values. -/
abbrev FillingPairs (params : Record Value) (t : Traits) :
    List (Part × Value) → List (Option Nat) → Prop :=
  List.Forall₂ fun pair known => pair.1.codec.Filling params t known

private theorem FillingAll.pairs {pairs : List (Part × Value)}
    (h : FillingAll params t parts knowns)
    (same : pairs.map Prod.fst = parts) : FillingPairs params t pairs knowns := by
  subst same
  exact (List.forall₂_map_left_iff (f := Prod.fst)).mp h

private theorem fills_noteItem {item : Part} {value : Value} (inner : base.context.below ≠ [])
    (moving : ¬ t.still) : (noteItem item value).Fills params t base P fun _ => P := by
  unfold noteItem
  cases item.name? with
  | none => exact fills_pure fun _ => id
  | some name => exact fills_insert inner moving

private theorem fills_buildItems {pairs : List (Part × Value)}
    (h : FillingPairs params t.loose pairs knowns) (path : Path) (i p : Nat)
    (ruled : base.context.Ruled params (depth + 1)) :
    (buildItems path i pairs).Fills params t.loose base (· = p)
      fun _ => Reaches (total knowns) p := by
  have inner := ruled.inner
  induction h generalizing i p with
  | nil => exact fills_pure fun _ => reaches_here
  | @cons pair known rest others first _ ih =>
      obtain ⟨item, value⟩ := pair
      refine fills_trans (first.part value _ p ruled (Context.anchors_inside inner _))
        fun built q => .bind (fills_noteItem inner id) fun _ => ?_
      exact .bind (ih (i + 1) q) fun _ => fills_pure fun _ => id

private theorem fills_buildFrame (he : e.Steady) (fills : e.Filling params) (guarded : t.guarded)
    {pairs : List (Part × Value)} (h : FillingPairs params t.loose pairs knowns)
    (values : Record Value) (path : Path) (p : Nat) (ruled : base.context.Ruled params depth) :
    (Run.inFrame values do
      let built ← buildItems path 0 pairs
      e.resolvePending
      return built).Fills params t base (· = p) fun _ => Reaches (total knowns) p :=
  .inFrame (Q := fun _ => Reaches (total knowns) p) fun _ grown _ => by
    have ruled' := (ruled_of_grows ruled grown guarded).push values
    exact .bind (fills_buildItems h path 0 p ruled') fun _ =>
      .bind (fills_resolvePending he fills guarded ruled' rfl) fun _ => fills_pure fun _ => id

theorem filling_sequence (he : e.Steady) (fills : e.Filling params) (guarded : t.guarded)
    (h : FillingAll params t.loose parts knowns) :
    (sequence e parts).Filling params t (total knowns) := by
  refine filling_of (fun _ _ => rfl) fun v path depth base p ruled _ =>
    .bind e.fills_listInput fun input => fills_guard fun same => ?_
  have pairs := h.pairs (List.map_fst_zip (by omega : parts.length ≤ input.length))
  exact .bind (fills_buildFrame he fills guarded pairs _ path p ruled) fun _ =>
    fills_pure fun _ => id

theorem filling_focused (he : e.Steady) (fills : e.Filling params) (guarded : t.guarded)
    (h : FillingAll params t.loose parts knowns) (focus : Selector) :
    (focused e focus parts).Filling params t (total knowns) := by
  refine filling_of (fun _ _ => rfl) fun v path depth base p ruled _ =>
    .bind (Q := fun _ => (· = p)) ?_ fun i => ?_
  · unfold focusIndex
    cases Select.index? focus parts with
    | none => exact fills_fail
    | some i => exact fills_pure fun _ => id
  · have pairs : FillingPairs params t.loose
        (parts.zipIdx.map fun entry => (entry.1, if entry.2 = i then v else .none)) knowns :=
      h.pairs (by
        rw [List.map_map]
        exact List.zipIdx_map_fst 0 parts)
    exact .bind (fills_buildFrame he fills guarded pairs _ path p ruled) fun _ =>
      fills_pure fun _ => id

end Codec

end BinaryFormat
