import BinaryFormat.Codec.Envelope
import BinaryFormat.Proofs.Twins.Components

/-!
# Fair components around others

Fixed and converted values, positions, padding, payloads, transformations and views:
each is fair if the component that it is put around is.
-/

namespace BinaryFormat

open Lookup Run

variable {admitted : String → Prop} {loose : Bool} {w : Pairing admitted loose}

namespace Codec

variable {e : Engine} {c d : Codec} {p q : Part} {x : Expr}

/-! ## Fixed, computed and checked values -/

theorem fair_constant (fair : e.Fair admitted) (h : c.Fair admitted loose) (value : Value) :
    (constant e c value).Fair admitted loose where
  parse w path := by
    refine .bind (h.parse w path) fun found => .bind (e.fair_equal fair _ _) fun same => ?_
    refine fair_ite ?_ (fair_pure _)
    exact .bind (fair_dump _) fun _ => .bind (fair_dump _) fun _ => .bind (fair_fail _ _)
      fun _ => fair_pure _
  parseInline _ _ _ := fair_fail _ _
  size := h.size

theorem fair_computed (fair : e.Fair admitted) (named : loose = true → x.isNamed) :
    (computed e x).Fair admitted loose where
  parse _ path := e.fair_eval fair named path
  parseInline _ _ _ := fair_fail _ _
  size _ _ := alike_pure _

theorem fair_fallback (h : c.Fair admitted loose) (value : Value) :
    (fallback c value).Fair admitted loose where
  parse := h.parse
  parseInline _ _ _ := fair_fail _ _
  size := h.size

theorem fair_check (fair : e.Fair admitted) (named : loose = true → x.isNamed) :
    (check e x).Fair admitted loose where
  parse _ path := .bind (e.fair_evalHolds fair named path) fun _ =>
    fair_ite (fair_pure _) (fair_fail _ _)
  parseInline _ _ _ := fair_fail _ _
  size _ _ := alike_pure _

theorem fair_explicit (message : String) : (explicit message).Fair admitted loose where
  parse _ _ := fair_fail _ _
  parseInline _ _ _ := fair_fail _ _
  size _ path := alike_unsized _ path

theorem fair_rebuild (h : p.codec.Fair admitted loose) (x : Expr) :
    (rebuild e p x).Fair admitted loose where
  parse := h.parse
  parseInline _ _ _ := fair_fail _ _
  size := h.size

private theorem fair_digestsAgree (fair : e.Fair admitted) (stored computed : Value) :
    (digestsAgree e stored computed).Fair w := by
  unfold digestsAgree
  split
  · exact fair_pure _
  · exact fair_pure _
  · exact e.fair_equal fair _ _

theorem fair_checksum (fair : e.Fair admitted) (h : p.codec.Fair admitted loose) (hash : Hash)
    (named : loose = true → x.isNamed) : (checksum e p hash x).Fair admitted loose where
  parse w path := by
    refine .bind (h.parse w path) fun stored => .bind (e.fair_eval fair named path) fun input =>
      .bind (fair_ofExcept _ _) fun computed => .bind (fair_digestsAgree fair stored computed)
        fun same => fair_ite ?_ (fair_pure _)
    exact .bind (fair_dump _) fun _ => .bind (fair_dump _) fun _ => .bind (fair_fail _ _)
      fun _ => fair_pure _
  parseInline _ _ _ := fair_fail _ _
  size := h.size

/-! ## Conversions -/

theorem fair_converted (h : c.Fair admitted loose) (conversion : Conversion) :
    (converted c conversion).Fair admitted loose where
  parse w path := .bind (h.parse w path) fun _ => fair_ofExcept _ _
  parseInline _ _ _ := fair_fail _ _
  size := h.size

theorem fair_convertedIn (h : c.Fair admitted loose) {conversion : ScopedConversion}
    (named : loose = true → conversion.IsNamed) :
    (convertedIn c conversion).Fair admitted loose where
  parse w path := by
    refine .bind (h.parse w path) fun raw s t states => ?_
    have same : conversion.decode s.context.scope path raw =
        conversion.decode t.context.scope path raw := by
      cases loose with
      | false => rw [Context.scope, Context.scope, states.context.tight rfl]
      | true => exact named rfl _ _ states.context.unindexed path raw
    show Outcomes w.States Eq (Run.settle (conversion.decode s.context.scope path raw) s)
      (Run.settle (conversion.decode t.context.scope path raw) t)
    rw [same]
    exact fair_settle _ s t states
  parseInline _ _ _ := fair_fail _ _
  size := h.size

theorem fair_convertedBy (fair : e.Fair admitted) (h : c.Fair admitted loose)
    (named : loose = true → x.isNamed) (encode : Expr) :
    (convertedBy e c x encode).Fair admitted loose where
  parse w path := .bind (h.parse w path) fun raw => e.fair_evalOver fair named path raw
  parseInline _ _ _ := fair_fail _ _
  size := h.size

private theorem fair_isAmong (fair : e.Fair admitted) (v : Value) (others : List Value) :
    (isAmong e v others).Fair w := by
  induction others with
  | nil => exact fair_pure _
  | cons other rest ih => exact .bind (e.fair_equal fair _ _) fun _ => fair_ite (fair_pure _) ih

private theorem fair_validate (fair : e.Fair admitted) {rule : Rule}
    (named : loose = true → rule.IsNamed)
    (v : Value) (path : Path) : (validate e rule v path).Fair w := by
  cases rule with
  | satisfies predicate =>
      refine .bind (e.fair_evalOver fair named path v) fun _ => fair_ite ?_ (fair_pure _)
      exact .bind (fair_dump _) fun _ => fair_fail _ _
  | oneOf allowed =>
      refine .bind (fair_isAmong fair v allowed) fun _ => fair_ite ?_ (fair_pure _)
      exact .bind (fair_dump _) fun _ => fair_fail _ _
  | noneOf denied =>
      refine .bind (fair_isAmong fair v denied) fun _ => fair_ite ?_ (fair_pure _)
      exact .bind (fair_dump _) fun _ => fair_fail _ _

theorem fair_validated (fair : e.Fair admitted) (h : c.Fair admitted loose) {rule : Rule}
    (named : loose = true → rule.IsNamed) : (validated e c rule).Fair admitted loose where
  parse w path := .bind (h.parse w path) fun v => .bind (fair_validate fair named v path) fun _ =>
    fair_pure _
  parseInline _ _ _ := fair_fail _ _
  size := h.size

theorem fair_labelled (h : c.Fair admitted loose) (labels : List (String × Int))
    (unlabelled : Unlabelled) : (labelled c labels unlabelled).Fair admitted loose where
  parse w path := by
    refine .bind (h.parse w path) fun raw => ?_
    cases raw.int? with
    | none => exact fair_fail _ _
    | some n =>
        dsimp only
        split
        · exact fair_pure _
        · exact fair_pure _
        · exact fair_pure _
        · exact fair_fail _ _
  parseInline _ _ _ := fair_fail _ _
  size := h.size

private theorem fair_findPair (fair : e.Fair admitted) (v : Value) : ∀ table : List (Value × Value),
    (findPair e v table).Fair w
  | [] => fair_pure _
  | (_, _) :: rest => .bind (e.fair_equal fair _ _) fun _ =>
      fair_ite (fair_pure _) (fair_findPair fair v rest)

theorem fair_mapped (fair : e.Fair admitted) (h : c.Fair admitted loose)
    (table : List (Value × Value)) : (mapped e c table).Fair admitted loose where
  parse w path := by
    refine .bind (h.parse w path) fun raw => .bind (fair_findPair fair raw table) fun found => ?_
    cases found with
    | none => exact .bind (fair_dump _) fun _ => fair_fail _ _
    | some shown => exact fair_pure _
  parseInline _ _ _ := fair_fail _ _
  size := h.size

theorem fair_flagSet (h : c.Fair admitted loose) (flags : List (String × Nat)) (strict : Bool) :
    (flagSet c flags strict).Fair admitted loose where
  parse w path := by
    refine .bind (h.parse w path) fun raw => ?_
    cases raw.int? with
    | none => exact fair_fail _ _
    | some n => exact fair_guard (fair_ite (fair_pure _) (fair_guard (fair_pure _)))
  parseInline _ _ _ := fair_fail _ _
  size := h.size

/-! ## Position -/

private theorem fair_atOffset (fair : e.Fair admitted) (named : loose = true → x.isNamed)
    (path : Path)
    {α : Type} {y : Run α} (h : y.Fair w) : (atOffset e x path y).Fair w :=
  .bind (e.fair_evalInt fair named path) fun _ => .bind fair_tell fun back =>
    .bind (fair_ofExcept _ _) fun dest => .bind (fair_seek dest path) fun _ =>
      .bind h.outcome fun _ => .bind (fair_goTo back) fun _ => fair_settle _

theorem fair_pointer (fair : e.Fair admitted) (named : loose = true → x.isNamed)
    (h : p.codec.Fair admitted loose) : (pointer e x p).Fair admitted loose where
  parse _ path := fair_atOffset fair named path (h.parsePart path)
  parseInline _ _ _ := fair_fail _ _
  size _ _ := alike_pure _

theorem fair_peek (h : p.codec.Fair admitted loose) : (peek p).Fair admitted loose where
  parse w path := by
    refine .bind fair_tell fun start => .bind (h.parsePart path).outcome fun result =>
      .bind (fair_goTo start) fun _ => ?_
    cases result with
    | ok v => exact fair_pure v
    | error failure => exact fair_ite (fair_throw _) (fair_pure _)
  parseInline _ _ _ := fair_fail _ _
  size _ _ := alike_pure _

theorem fair_seek (fair : e.Fair admitted) (named : loose = true → x.isNamed) (whence : Whence) :
    (seek e x whence).Fair admitted loose where
  parse _ path := .bind (e.fair_evalInt fair named path) fun _ => .bind (fair_ofExcept _ _)
    fun dest => .bind (Run.fair_seek dest path) fun _ => fair_pure _
  parseInline _ _ _ := fair_fail _ _
  size _ path := alike_unsized _ path

theorem fair_tell : tell.Fair admitted loose where
  parse _ _ := .bind Run.fair_tell fun _ => fair_pure _
  parseInline _ _ _ := fair_fail _ _
  size _ _ := alike_pure _

private theorem fair_skipFill (fill : Fill) (count : Nat) (path : Path) :
    (skipFill fill count path).Fair w := by
  refine .bind (fair_read count path) fun data => fair_ite ?_ (fair_pure _)
  cases firstOther fill.pattern 0 data with
  | none => exact fair_pure _
  | some other => exact fair_fail _ _

theorem fair_padding (fair : e.Fair admitted) (named : loose = true → x.isNamed) (fill : Fill) :
    (padding e x fill).Fair admitted loose where
  parse _ path := .bind (e.fair_evalSize fair named path) fun n =>
    .bind (fair_skipFill fill n path) fun _ => fair_pure _
  parseInline _ _ _ := fair_fail _ _
  size contexts path := e.alike_staticSize fair named path contexts

theorem fair_padded (fair : e.Fair admitted) (named : loose = true → x.isNamed)
    (h : c.Fair admitted loose) (fill : Fill) : (padded e x c fill).Fair admitted loose where
  parse w path := .bind (e.fair_evalSize fair named path) fun _ => .bind Run.fair_tell fun _ =>
    .bind (h.parse w path) fun _ => .bind Run.fair_tell fun _ =>
      .bind (fair_ite (fair_pure _) (fair_fail _ _)) fun _ =>
        .bind (fair_skipFill fill _ path) fun _ => fair_pure _
  parseInline _ _ _ := fair_fail _ _
  size contexts path := e.alike_staticSize fair named path contexts

theorem fair_aligned (fair : e.Fair admitted) (named : loose = true → x.isNamed)
    (h : c.Fair admitted loose) (fill : Fill) : (aligned e x c fill).Fair admitted loose where
  parse w path := .bind (.bind (e.fair_evalSize fair named path) fun _ => fair_guard (fair_pure _))
    fun _ => .bind Run.fair_tell fun _ => .bind (h.parse w path) fun _ => .bind Run.fair_tell
      fun _ => .bind (fair_skipFill fill _ path) fun _ => fair_pure _
  parseInline _ _ _ := fair_fail _ _
  size contexts path := (e.alike_staticSize fair named path contexts).both fun _ =>
    (h.size contexts path).both fun _ => alike_pure _

/-! ## Payloads -/

private theorem fair_overhead (h : p.codec.Fair admitted loose) (inclusive : Bool) (path : Path) :
    (overhead p inclusive path).Fair w := fair_ite (h.sizeNow path) (fair_pure _)

theorem fair_prefixed (length : p.codec.Fair admitted loose) (h : c.Fair admitted loose)
    (inclusive lenient : Bool) : (prefixed p c inclusive lenient).Fair admitted loose where
  parse _ path := by
    refine .bind (length.parsePart path) fun stored => ?_
    cases stored.int? with
    | none => exact fair_fail _ _
    | some n =>
        exact .bind (fair_overhead length inclusive path) fun _ => fair_guard
          (.bind (fair_read _ path) fun data => .bind (h.parseSlice data path) fun _ =>
            fair_guard (fair_pure _))
  parseInline _ _ _ := fair_fail _ _
  size contexts path := (length.size contexts path).both fun _ => (h.size contexts path).both
    fun _ => alike_pure _

theorem fair_fixedSized (fair : e.Fair admitted) (named : loose = true → x.isNamed)
    (h : c.Fair admitted loose) : (fixedSized e x c).Fair admitted loose where
  parse _ path := .bind (e.fair_evalSize fair named path) fun n => .bind (fair_read n path)
    fun data => .bind (h.parseSlice data path) fun _ => fair_pure _
  parseInline _ _ _ := fair_fail _ _
  size contexts path := e.alike_staticSize fair named path contexts

private theorem readDelimited_eq (delimiter : Delimiter) (positive : 0 < delimiter.unit.length)
    (path : Path) : ∀ (more more' : Nat) (data : List UInt8) (s : State),
      s.stream.left.length < more → s.stream.left.length < more' →
      readDelimited delimiter path more data s = readDelimited delimiter path more' data s := by
  intro more
  induction more with
  | zero =>
      intro more' data s low
      exact absurd low (Nat.not_lt_zero _)
  | succ more ih =>
      intro more' data s low low'
      obtain ⟨more', rfl⟩ := Nat.exists_eq_add_of_le' (Nat.lt_of_le_of_lt (Nat.zero_le _) low')
      obtain ⟨s₁, sized, left⟩ : ∃ s₁, Run.size s = .ok s.stream.size.1 s₁ ∧
          s₁.stream.left = s.stream.left := ⟨_, rfl, s.stream.left_size⟩
      have told : Run.tell s₁ = .ok s₁.stream.pos s₁ := rfl
      rw [readDelimited, readDelimited, bind_of_ok sized, bind_of_ok sized, bind_of_ok told,
        bind_of_ok told]
      dsimp only
      split
      · rfl
      · cases read : Run.read delimiter.unit.length path s₁ with
        | error failure s' =>
            rw [bind_of_ok (outcome_of_error read), bind_of_ok (outcome_of_error read)]
        | ok chunk s' =>
            have less := length_left_of_read read
            rw [left] at less
            rw [bind_of_ok (outcome_of_ok read), bind_of_ok (outcome_of_ok read)]
            dsimp only
            split
            · rfl
            · exact ih _ _ _ (by omega) (by omega)

private theorem fair_readDelimited (delimiter : Delimiter) (path : Path) :
    ∀ (more : Nat) (data : List UInt8), (readDelimited delimiter path more data).Fair w
  | 0, _ => fair_fail _ _
  | more + 1, data => by
      refine .bind fair_size fun _ => .bind Run.fair_tell fun _ => fair_ite ?_ ?_
      · exact .bind fair_readAll fun _ => fair_pure _
      · refine .bind (fair_read _ path).outcome fun found => ?_
        cases found with
        | error failure =>
            dsimp only
            split
            · exact fair_fail _ _
            · exact fair_throw _
        | ok chunk =>
            refine fair_ite (fair_ite (.bind (Run.fair_seek _ path) fun _ => ?_) ?_) ?_
            · exact fair_pure _
            · exact fair_pure _
            · exact fair_readDelimited delimiter path more _

theorem fair_delimited (h : c.Fair admitted loose) (delimiter : Delimiter) :
    (delimited c delimiter).Fair admitted loose where
  parse w path := by
    by_cases empty : delimiter.unit.isEmpty = true
    · have refused : (delimited c delimiter).parse path =
          Run.fail (.misshapen .emptyTerminator) path := by
        simp only [delimited, empty, if_true]
        rfl
      rw [refused]
      exact fair_fail _ _
    · have positive : 0 < delimiter.unit.length := by
        simpa [List.length_pos_iff] using empty
      have data : Run.Fair w (do readDelimited delimiter path ((← available) + 1) []) :=
        fair_available (fun n m s => readDelimited_eq delimiter positive path n m [] s) fun n =>
          fair_readDelimited delimiter path n []
      have payload : Run.Fair w (do
          let data ← readDelimited delimiter path ((← available) + 1) []
          return (← c.parseSlice data path).1) :=
        data.bind fun data => (h.parseSlice data path).bind fun result => fair_pure result.1
      exact fair_guard payload
  parseInline _ _ _ := fair_fail _ _
  size _ path := alike_unsized _ path

theorem fair_stripped (h : c.Fair admitted loose) (pad : List UInt8) :
    (stripped c pad).Fair admitted loose where
  parse _ path := .bind fair_readAll fun _ => .bind (h.parseSlice _ path) fun _ => fair_pure _
  parseInline _ _ _ := fair_fail _ _
  size _ path := alike_unsized _ path

theorem fair_rawCopy (h : p.codec.Fair admitted loose) : (rawCopy e p).Fair admitted loose where
  parse _ path := .bind Run.fair_tell fun start => .bind (h.parsePart path) fun _ =>
    .bind Run.fair_tell fun _ => .bind (.bind Run.fair_tell fun _ => .bind (fair_goTo start)
      fun _ => fair_read _ path) fun _ => fair_pure _
  parseInline _ _ _ := fair_fail _ _
  size := h.size

/-! ## Transformations and views -/

private theorem fair_applyTransform (fair : e.Fair admitted) (inverse : Bool) (data : List UInt8)
    (path : Path) {transform : Transform} (named : loose = true → transform.IsNamed) :
    (applyTransform e inverse data path transform).Fair w := by
  cases transform with
  | reverseBytes => exact fair_pure _
  | reverseBits => exact fair_pure _
  | xor key =>
      refine .bind (.bind (e.fair_eval fair named path) fun v => ?_) fun _ => fair_pure _
      cases v with
      | int k => exact fair_ite (fair_pure _) (fair_fail _ _)
      | bytes k => exact fair_ite (fair_fail _ _) (fair_pure _)
      | _ => exact fair_fail _ _
  | rotateLeft amount group =>
      exact fair_guard (.bind (e.fair_evalSize fair named path) fun _ => fair_pure _)

private theorem fair_evalExtent (fair : e.Fair admitted) (h : c.Fair admitted loose)
    {extent : Extent}
    (named : loose = true → extent.IsNamed) (path : Path) :
    (evalExtent e extent c path).Fair w := by
  cases extent with
  | ofChild => exact .bind (h.sizeNow path) fun _ => fair_pure _
  | toEnd => exact fair_pure _
  | fixed n => exact .bind (e.fair_evalSize fair named path) fun _ => fair_pure _

theorem fair_transformed (fair : e.Fair admitted) (h : c.Fair admitted loose)
    {transform : Transform} {extent : Extent}
    (named : loose = true → transform.IsNamed ∧ extent.IsNamed) :
    (transformed e c transform extent).Fair admitted loose where
  parse w path := by
    have slice : ∀ data : List UInt8, Run.Fair w (do
        let decoded ← applyTransform e false data path transform
        return (← c.parseSlice decoded path).1) :=
      fun data => .bind (fair_applyTransform fair false data path fun differ => (named differ).1)
        fun _ => .bind (h.parseSlice _ path) fun _ => fair_pure _
    refine .bind (fair_evalExtent fair h (fun differ => (named differ).2) path) fun found => ?_
    cases found with
    | some n => exact .bind (fair_read n path) slice
    | none => exact .bind fair_readAll slice
  parseInline _ _ _ := fair_fail _ _
  size contexts path := by
    cases extent with
    | ofChild => exact h.size contexts path
    | toEnd => exact alike_unsized _ path
    | fixed n => exact e.alike_staticSize fair (fun differ => (named differ).2) path contexts

theorem fair_recoded (h : c.Fair admitted loose) (recoding : Recoding) (checked : Bool) :
    (recoded e c recoding checked).Fair admitted loose where
  parse w path := by
    have inside := (h.parse w.viewed path).inView recoding path
    refine fair_ite (.bind ?_ fun _ => inside) inside
    exact .bind Run.fair_tell fun _ => fair_ite (fair_fail _ _) (fair_pure _)
  parseInline _ _ _ := fair_fail _ _
  size contexts path := (h.size contexts path).both fun _ => twins_ite
    (Twins.both (alike_throw _) fun _ => alike_pure _) (alike_pure _)

end Codec

end BinaryFormat
