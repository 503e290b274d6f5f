import BinaryFormat.Codec.Envelope
import BinaryFormat.Proofs.Access.Components

/-!
# Components around others that match

Fixed and converted values, positions, padding, payloads, transformations and views:
two of them match if the components inside them do.
-/

namespace BinaryFormat

open Run

variable {q : Setting} {w : World} {e e' : Engine} {v v' : Value}

namespace Codec

variable {c c' : Codec} {p p' : Part} {x : Expr}

/-! ## Fixed, computed and checked values -/

theorem matches_constant (concur : e.Matches q e') (h : c.Matches q c') {value : Value}
    (eager : q.Compares → value.Eager) :
    (constant e c value).Matches q (constant e' c' value) where
  parse path := .over_constant eager fun same =>
    (h.parse path).bind fun _ later _ _ matched =>
      (e.concurs_equal concur matched (same.mono later.related)).both fun _ later' _ =>
        concurs_ite (concurs_dump (same.mono (later.trans later').related) fun _ _ wanted =>
          concurs_dump (matched.mono later'.related) fun _ _ shown =>
            Concurs.bind (A := .same) (concurs_fail (.constMismatch wanted shown) path)
              fun _ on _ _ _ => concurs_pure (matched.mono (later'.trans on).related))
          (concurs_pure (matched.mono later'.related))
  parseInline _ _ := concurs_refused _ _
  size := h.size

theorem matches_computed (concur : e.Matches q e') (uniform : q.Compares → x.Uniform) :
    (computed e x).Matches q (computed e' x) where
  parse path := e.concurs_eval concur uniform path
  parseInline _ _ := concurs_refused _ _
  size _ _ := concurs_pure rfl

theorem matches_fallback (h : c.Matches q c') (value : Value) :
    (fallback c value).Matches q (fallback c' value) where
  parse := h.parse
  parseInline _ _ := concurs_refused _ _
  size := h.size

theorem matches_check (concur : e.Matches q e') (uniform : q.Compares → x.Uniform) :
    (check e x).Matches q (check e' x) where
  parse path := (e.concurs_evalHolds concur uniform path).both fun _ _ _ =>
    concurs_ite (concurs_plain trivial) (concurs_refused _ path)
  parseInline _ _ := concurs_refused _ _
  size _ _ := concurs_pure rfl

theorem matches_explicit (message : String) : (explicit message).Matches q (explicit message) where
  parse _ := concurs_refused _ _
  parseInline _ _ := concurs_refused _ _
  size _ path := concurs_unsized _ path

theorem matches_rebuild (h : p.codec.Matches q p'.codec) (x : Expr) :
    (rebuild e p x).Matches q (rebuild e' p' x) where
  parse := h.parse
  parseInline _ _ := concurs_refused _ _
  size := h.size

private theorem concurs_digestsAgree (concur : e.Matches q e') {a a' b b' : Value}
    (stored : a.Matches w.Related a') (computed : b.Matches w.Related b') :
    Concurs q w .same (digestsAgree e a b) (digestsAgree e' a' b') := by
  have equal := e.concurs_equal concur stored computed
  unfold digestsAgree
  cases stored with
  | plain plain =>
      cases computed with
      | plain plain' =>
          split
          · exact concurs_pure rfl
          · exact concurs_pure rfl
          · exact equal
      | _ =>
          cases a <;> first
            | exact plain.elim
            | exact equal
  | _ => exact equal

theorem matches_checksum (concur : e.Matches q e') (h : p.codec.Matches q p'.codec) (hash : Hash)
    (uniform : q.Compares → x.Uniform) :
    (checksum e p hash x).Matches q (checksum e' p' hash x) where
  parse path :=
    (h.parse path).bind fun _ _ _ _ matched =>
      (e.concurs_eval concur uniform path).bind fun _ on₁ _ _ data =>
        (concurs_ofExcept (A := .value) path (Checksum.matches_digest hash data)).bind
          fun _ on₂ _ _ digest =>
            have matched := matched.mono (on₁.trans on₂).related
            (concurs_digestsAgree concur matched digest).both fun _ on₃ _ =>
              concurs_ite (concurs_dump (matched.mono on₃.related) fun _ _ shown =>
                concurs_dump (digest.mono on₃.related) fun _ _ found =>
                  Concurs.bind (A := .same) (concurs_fail (.checksum shown found) path)
                    fun _ on₄ _ _ _ => concurs_pure (matched.mono (on₃.trans on₄).related))
                (concurs_pure (matched.mono on₃.related))
  parseInline _ _ := concurs_refused _ _
  size := h.size

/-! ## Conversions -/

theorem matches_converted (h : c.Matches q c') {conversion : Conversion}
    (uniform : q.Compares → conversion.Uniform) :
    (converted c conversion).Matches q (converted c' conversion) where
  parse path := (h.parse path).bind fun w _ raw raw' matched =>
    .when (fun compares =>
      concurs_ofExcept path (uniform compares w.Related raw raw' matched))
      (concurs_apart (lasts_ofExcept path _) (lasts_ofExcept path _))
  parseInline _ _ := concurs_refused _ _
  size := h.size

theorem matches_convertedIn (h : c.Matches q c') {conversion : ScopedConversion}
    (uniform : q.Compares → conversion.Uniform) :
    (convertedIn c conversion).Matches q (convertedIn c' conversion) where
  parse path := (h.parse path).bind fun _ _ raw raw' matched =>
    concurs_scope.bind fun w later scope scope' scopes =>
      .when (fun compares => concurs_settle
        (uniform compares w.Related scope scope' scopes path raw raw' (matched.mono later.related)))
        (concurs_apart (lasts_settle _) (lasts_settle _))
  parseInline _ _ := concurs_refused _ _
  size := h.size

theorem matches_convertedBy (concur : e.Matches q e') (h : c.Matches q c')
    (uniform : q.Compares → x.Uniform) (encode : Expr) :
    (convertedBy e c x encode).Matches q (convertedBy e' c' x encode) where
  parse path := (h.parse path).bind fun _ _ _ _ matched =>
    e.concurs_evalOver concur uniform path matched
  parseInline _ _ := concurs_refused _ _
  size := h.size

private theorem concurs_isAmong (concur : e.Matches q e') : ∀ {w : World} {others : List Value},
    (q.Compares → ∀ other ∈ others, other.Eager) → v.Matches w.Related v' →
      Concurs q w .same (isAmong e v others) (isAmong e' v' others)
  | _, [], _, _ => concurs_pure rfl
  | w, other :: rest, eager, matched => by
      have first : Concurs q w .same (e.equal other v) (e'.equal other v') :=
        .when (fun compares => e.concurs_equal concur
            (Value.matches_of_eager (eager compares other List.mem_cons_self)) matched)
          (e.concurs_equal concur (Value.matches_self (fun _ => trivial) other)
            (matched.mono fun _ _ _ => trivial))
      exact first.both fun _ later _ => concurs_ite (concurs_pure rfl)
        (concurs_isAmong concur (fun compares other mem =>
          eager compares other (List.mem_cons_of_mem _ mem)) (matched.mono later.related))

private theorem concurs_validate (concur : e.Matches q e') {rule : Rule}
    (uniform : q.Compares → rule.Uniform) (matched : v.Matches w.Related v') (path : Path) :
    Concurs q w .same (validate e rule v path) (validate e' rule v' path) := by
  cases rule with
  | satisfies predicate =>
      refine (e.concurs_evalOver concur uniform path matched).bind fun _ later b b' holds => ?_
      rw [holds.holds]
      exact concurs_ite (concurs_dump (matched.mono later.related) fun _ _ shown =>
        concurs_fail (.predicate shown _) path) (concurs_pure rfl)
  | oneOf allowed =>
      exact (concurs_isAmong concur uniform matched).both fun _ later _ =>
        concurs_ite (concurs_dump (matched.mono later.related) fun _ _ shown =>
          concurs_fail (.notOneOf shown _) path) (concurs_pure rfl)
  | noneOf denied =>
      exact (concurs_isAmong concur uniform matched).both fun _ later _ =>
        concurs_ite (concurs_dump (matched.mono later.related) fun _ _ shown =>
          concurs_fail (.oneOf shown _) path) (concurs_pure rfl)

theorem matches_validated (concur : e.Matches q e') (h : c.Matches q c') {rule : Rule}
    (uniform : q.Compares → rule.Uniform) :
    (validated e c rule).Matches q (validated e' c' rule) where
  parse path := (h.parse path).bind fun _ _ _ _ matched =>
    (concurs_validate concur uniform matched path).both fun _ later _ =>
      concurs_pure (matched.mono later.related)
  parseInline _ _ := concurs_refused _ _
  size := h.size

theorem matches_labelled (h : c.Matches q c') (labels : List (String × Int))
    (unlabelled : Unlabelled) :
    (labelled c labels unlabelled).Matches q (labelled c' labels unlabelled) where
  parse path := by
    refine (h.parse path).bind fun _ _ raw raw' matched => ?_
    rw [matched.int?, matched.typeName]
    cases raw'.int? with
    | none => exact concurs_refused _ path
    | some n =>
        dsimp only
        split
        · exact concurs_plain trivial
        · exact concurs_pure matched
        · exact concurs_plain trivial
        · exact concurs_refused _ path
  parseInline _ _ := concurs_refused _ _
  size := h.size

private theorem concurs_findPair (concur : e.Matches q e') : ∀ {w : World}
    {table : List (Value × Value)},
    (q.Compares → ∀ pair ∈ table, pair.1.Eager ∧ pair.2.Eager) → v.Matches w.Related v' →
      Concurs q w (.option .value) (findPair e v table) (findPair e' v' table)
  | _, [], _, _ => concurs_pure .none
  | w, (shown, key) :: rest, eager, matched => by
      have both := fun compares => eager compares (shown, key) List.mem_cons_self
      have first : Concurs q w .same (e.equal key v) (e'.equal key v') :=
        .when
          (fun compares =>
            e.concurs_equal concur (Value.matches_of_eager (both compares).2) matched)
          (e.concurs_equal concur (Value.matches_self (fun _ => trivial) key)
            (matched.mono fun _ _ _ => trivial))
      exact first.both fun _ later _ => concurs_ite
        (.over_constant (fun compares => (both compares).1) fun same => concurs_pure (.some same))
        (concurs_findPair concur (fun compares pair mem =>
          eager compares pair (List.mem_cons_of_mem _ mem)) (matched.mono later.related))

theorem matches_mapped (concur : e.Matches q e') (h : c.Matches q c') {table : List (Value × Value)}
    (eager : q.Compares → ∀ pair ∈ table, pair.1.Eager ∧ pair.2.Eager) :
    (mapped e c table).Matches q (mapped e' c' table) where
  parse path := by
    refine (h.parse path).bind fun _ _ raw raw' matched =>
      (concurs_findPair concur eager matched).bind fun _ later found found' shown => ?_
    cases shown with
    | none =>
        exact concurs_dump (matched.mono later.related) fun _ _ shown =>
          concurs_fail (.raw shown) path
    | some same => exact concurs_pure same
  parseInline _ _ := concurs_refused _ _
  size := h.size

private theorem fieldsMatch_flagRecord {R : Handle → Handle → Prop} (flags : List (String × Nat))
    (raw : Nat) :
    Value.FieldsMatch R (flagRecord flags raw) (flagRecord flags raw) := by
  have extended : ∀ (entries : Record Value), (∀ entry ∈ entries, entry.2.IsPlain) →
      ∀ {fields : Record Value}, Value.FieldsMatch R fields fields →
        Value.FieldsMatch R (Record.extend fields entries) (Record.extend fields entries) := by
    intro entries
    induction entries with
    | nil => exact fun _ _ same => same
    | cons entry rest ih =>
        intro plain _ same
        exact ih (fun _ within => plain _ (.tail _ within))
          (same.insert entry.1 (.plain (plain _ (.head _))))
  refine extended _ (fun entry within => ?_) .nil
  obtain ⟨flag, -, rfl⟩ := List.mem_map.mp within
  trivial

theorem matches_flagSet (h : c.Matches q c') (flags : List (String × Nat)) (strict : Bool) :
    (flagSet c flags strict).Matches q (flagSet c' flags strict) where
  parse path := by
    refine (h.parse path).bind fun _ _ raw raw' matched => ?_
    rw [matched.int?, matched.typeName]
    cases raw'.int? with
    | none => exact concurs_refused _ path
    | some n =>
        have fields : ∀ {R}, Value.FieldsMatch R (flagRecord flags n.toNat)
            (flagRecord flags n.toNat) :=
          fieldsMatch_flagRecord flags n.toNat
        exact concurs_guard (concurs_ite (concurs_pure (.flags fields)) (concurs_guard
          (concurs_pure (.flags (fields.insert _ (Value.matches_ofNat _))))))
  parseInline _ _ := concurs_refused _ _
  size := h.size

/-! ## Position -/

private theorem concurs_atOffset (concur : e.Matches q e') (uniform : q.Compares → x.Uniform)
    (path : Path)
    {α : Type} {A : Likeness α} [A.Reflexive] {y y' : Run α} (h : Concurs q w A y y') :
    Concurs q w A (atOffset e x path y) (atOffset e' x path y') :=
  (e.concurs_evalInt concur uniform path).both fun _ on _ => concurs_tell.both fun _ on₁ back =>
    (concurs_result path _).both fun _ on₂ dest => (concurs_seek dest path).both fun _ on₃ _ =>
      (concurs_outcome (h.later (((on.trans on₁).trans on₂).trans on₃))).bind fun _ _ _ _ result =>
        (concurs_goTo back).both fun _ on₄ _ =>
          concurs_settle ((Likeness.result A).mono on₄.related result)

theorem matches_pointer (concur : e.Matches q e') (uniform : q.Compares → x.Uniform)
    (h : p.codec.Matches q p'.codec) : (pointer e x p).Matches q (pointer e' x p') where
  parse path := concurs_atOffset concur uniform path (h.parsePart path)
  parseInline _ _ := concurs_refused _ _
  size _ _ := concurs_pure rfl

theorem matches_peek (h : p.codec.Matches q p'.codec) : (peek p).Matches q (peek p') where
  parse path := by
    refine concurs_tell.both fun _ _ start => (concurs_outcome (h.parsePart path)).bind
      fun _ _ result result' matched => (concurs_goTo start).both fun _ later _ => ?_
    cases matched with
    | ok same => exact concurs_pure (same.mono later.related)
    | error failures =>
        dsimp only
        rw [failures.fault.isExplicit]
        exact concurs_ite (concurs_throw failures) (concurs_plain trivial)
  parseInline _ _ := concurs_refused _ _
  size _ _ := concurs_pure rfl

theorem matches_seek (concur : e.Matches q e') (uniform : q.Compares → x.Uniform)
    (whence : Whence) :
    (seek e x whence).Matches q (seek e' x whence) where
  parse path := (e.concurs_evalInt concur uniform path).both fun _ _ _ =>
    (concurs_result path _).both fun _ _ dest => (concurs_seek dest path).both fun _ _ _ =>
      concurs_plain trivial
  parseInline _ _ := concurs_refused _ _
  size _ path := concurs_unsized _ path

theorem matches_tell : tell.Matches q tell where
  parse _ := concurs_tell.both fun _ _ _ => concurs_plain trivial
  parseInline _ _ := concurs_refused _ _
  size _ _ := concurs_pure rfl

private theorem concurs_skipFill (fill : Fill) (count : Nat) (path : Path) :
    Concurs q w .same (skipFill fill count path) (skipFill fill count path) := by
  refine (concurs_read count path).both fun _ _ data => concurs_ite ?_ (concurs_pure rfl)
  cases firstOther fill.pattern 0 data with
  | none => exact concurs_pure rfl
  | some other => exact concurs_refused _ _

theorem matches_padding (concur : e.Matches q e') (uniform : q.Compares → x.Uniform) (fill : Fill) :
    (padding e x fill).Matches q (padding e' x fill) where
  parse path := (e.concurs_evalSize concur uniform path).both fun _ _ n =>
    (concurs_skipFill fill n path).both fun _ _ _ => concurs_plain trivial
  parseInline _ _ := concurs_refused _ _
  size contexts path := e.concurs_staticSize concur uniform path contexts

theorem matches_padded (concur : e.Matches q e') (uniform : q.Compares → x.Uniform)
    (h : c.Matches q c') (fill : Fill) :
    (padded e x c fill).Matches q (padded e' x c' fill) where
  parse path := (e.concurs_evalSize concur uniform path).both fun _ _ _ =>
    concurs_tell.both fun _ _ _ => (h.parse path).bind fun _ _ _ _ matched =>
      concurs_tell.both fun _ on _ =>
        (concurs_ite (A := .same) (concurs_pure rfl) (concurs_refused _ path)).both fun _ on₁ _ =>
          (concurs_skipFill fill _ path).both fun _ on₂ _ =>
            concurs_pure (matched.mono ((on.trans on₁).trans on₂).related)
  parseInline _ _ := concurs_refused _ _
  size contexts path := e.concurs_staticSize concur uniform path contexts

theorem matches_aligned (concur : e.Matches q e') (uniform : q.Compares → x.Uniform)
    (h : c.Matches q c') (fill : Fill) :
    (aligned e x c fill).Matches q (aligned e' x c' fill) where
  parse path :=
    have modulus : ∀ {w : World}, Concurs q w .same (evalModulus e x path)
        (evalModulus e' x path) :=
      (e.concurs_evalSize concur uniform path).both fun _ _ _ => concurs_guard (concurs_pure rfl)
    modulus.both fun _ _ _ => concurs_tell.both fun _ _ _ =>
      (h.parse path).bind fun _ _ _ _ matched => concurs_tell.both fun _ on _ =>
        (concurs_skipFill fill _ path).both fun _ on₁ _ =>
          concurs_pure (matched.mono (on.trans on₁).related)
  parseInline _ _ := concurs_refused _ _
  size contexts path := (e.concurs_staticSize concur uniform path contexts).both fun _ later _ =>
    (h.size (contexts.mono later.related) path).both fun _ _ _ => concurs_pure rfl

/-! ## Payloads -/

private theorem concurs_overhead (h : p.codec.Matches q p'.codec) (inclusive : Bool) (path : Path) :
    Concurs q w .same (overhead p inclusive path) (overhead p' inclusive path) :=
  concurs_ite (h.sizeNow path) (concurs_pure rfl)

theorem matches_prefixed (length : p.codec.Matches q p'.codec) (h : c.Matches q c')
    (inclusive lenient : Bool) :
    (prefixed p c inclusive lenient).Matches q (prefixed p' c' inclusive lenient) where
  parse path := by
    refine (length.parsePart path).bind fun _ _ stored stored' matched => ?_
    rw [matched.int?, matched.typeName]
    cases stored'.int? with
    | none => exact concurs_refused _ path
    | some n =>
        refine (concurs_overhead length inclusive path).both fun _ _ _ => concurs_guard
          ((concurs_read _ path).both fun _ _ data => (h.parseSlice data path).bind
            fun _ _ result result' related => ?_)
        obtain ⟨v, consumed⟩ := result
        obtain ⟨v', consumed'⟩ := result'
        obtain ⟨same, reached⟩ := related
        obtain rfl : consumed = consumed' := reached
        exact concurs_guard (concurs_pure same)
  parseInline _ _ := concurs_refused _ _
  size contexts path := (length.size contexts path).both fun _ later _ =>
    (h.size (contexts.mono later.related) path).both fun _ _ _ => concurs_pure rfl

theorem matches_fixedSized (concur : e.Matches q e') (uniform : q.Compares → x.Uniform)
    (h : c.Matches q c') : (fixedSized e x c).Matches q (fixedSized e' x c') where
  parse path := (e.concurs_evalSize concur uniform path).both fun _ _ n =>
    (concurs_read n path).both fun _ _ data => (h.parseSlice data path).bind fun _ _ _ _ related =>
      concurs_pure related.1
  parseInline _ _ := concurs_refused _ _
  size contexts path := e.concurs_staticSize concur uniform path contexts

private theorem concurs_readDelimited (delimiter : Delimiter) (path : Path) :
    ∀ {w : World} (more : Nat) (data : List UInt8), Concurs q w .same
      (readDelimited delimiter path more data) (readDelimited delimiter path more data)
  | _, 0, _ => concurs_refused _ _
  | _, more + 1, data => by
      refine concurs_size.both fun _ _ _ => concurs_tell.both fun _ _ _ => concurs_ite ?_ ?_
      · exact concurs_readAll.both fun _ _ _ => concurs_pure rfl
      · refine (concurs_outcome (concurs_read _ path)).bind fun _ _ found found' matched => ?_
        cases matched with
        | error failures => exact concurs_rescue failures _ path
        | ok same =>
            cases same
            refine concurs_ite (concurs_ite ((concurs_seek _ path).both fun _ _ _ => ?_) ?_) ?_
            · exact concurs_pure rfl
            · exact concurs_pure rfl
            · exact concurs_readDelimited delimiter path more _

theorem matches_delimited (h : c.Matches q c') (delimiter : Delimiter) :
    (delimited c delimiter).Matches q (delimited c' delimiter) where
  parse path := concurs_guard (concurs_available.both fun _ _ n =>
    (concurs_readDelimited delimiter path (n + 1) []).both fun _ _ data =>
      (h.parseSlice data path).bind fun _ _ _ _ related => concurs_pure related.1)
  parseInline _ _ := concurs_refused _ _
  size _ path := concurs_unsized _ path

theorem matches_stripped (h : c.Matches q c') (pad : List UInt8) :
    (stripped c pad).Matches q (stripped c' pad) where
  parse path := concurs_readAll.both fun _ _ _ => (h.parseSlice _ path).bind
    fun _ _ _ _ related => concurs_pure related.1
  parseInline _ _ := concurs_refused _ _
  size _ path := concurs_unsized _ path

private theorem matches_rawRecord {R : Handle → Handle → Prop} (data : List UInt8)
    (same : v.Matches R v')
    (offset1 offset2 : Nat) :
    (rawRecord data v offset1 offset2).Matches R (rawRecord data v' offset1 offset2) :=
  .container (.cons _ (Value.matches_ofNat _) (.cons _ (.plain trivial) (.cons _ same
    (.cons _ (Value.matches_ofNat _) (.cons _ (Value.matches_ofNat _) .nil)))))

private theorem concurs_copySince (offset : Nat) (path : Path) :
    Concurs q w .same (copySince offset path) (copySince offset path) :=
  concurs_tell.both fun _ _ _ => (concurs_goTo offset).both fun _ _ _ => concurs_read _ path

theorem matches_rawCopy (h : p.codec.Matches q p'.codec) :
    (rawCopy e p).Matches q (rawCopy e' p') where
  parse path := concurs_tell.both fun _ _ start => (h.parsePart path).bind fun _ _ _ _ matched =>
    concurs_tell.both fun _ on _ => (concurs_copySince start path).both fun _ on₁ _ =>
      concurs_pure (matches_rawRecord _ (matched.mono (on.trans on₁).related) _ _)
  parseInline _ _ := concurs_refused _ _
  size := h.size

/-! ## Transformations and views -/

private theorem concurs_applyTransform (concur : e.Matches q e') (inverse : Bool)
    (data : List UInt8)
    (path : Path) {transform : Transform} (uniform : q.Compares → transform.Uniform) :
    Concurs q w .same (applyTransform e inverse data path transform)
      (applyTransform e' inverse data path transform) := by
  cases transform with
  | reverseBytes => exact concurs_pure rfl
  | reverseBits => exact concurs_pure rfl
  | xor key =>
      have bytes : ∀ {w : World}, Concurs q w .same (evalXorKey e key path)
          (evalXorKey e' key path) := by
        refine (e.concurs_eval concur uniform path).bind fun _ _ v v' matched => ?_
        cases matched with
        | plain plain =>
            cases v with
            | int k => exact concurs_ite (concurs_pure rfl) (concurs_refused _ path)
            | bytes k => exact concurs_ite (concurs_refused _ path) (concurs_pure rfl)
            | list | container | flags | lazyContainer | lazyList => exact plain.elim
            | _ => exact concurs_refused _ path
        | list | container | flags | lazyContainer | lazyList => exact concurs_refused _ path
      exact bytes.both fun _ _ _ => concurs_pure rfl
  | rotateLeft amount group =>
      exact concurs_guard ((e.concurs_evalSize concur uniform path).both fun _ _ _ =>
        concurs_pure rfl)

private theorem concurs_evalExtent (concur : e.Matches q e') (h : c.Matches q c') {extent : Extent}
    (uniform : q.Compares → extent.Uniform) (path : Path) :
    Concurs q w .same (evalExtent e extent c path) (evalExtent e' extent c' path) := by
  cases extent with
  | ofChild => exact (h.sizeNow path).both fun _ _ _ => concurs_pure rfl
  | toEnd => exact concurs_pure rfl
  | fixed n => exact (e.concurs_evalSize concur uniform path).both fun _ _ _ => concurs_pure rfl

theorem matches_transformed (concur : e.Matches q e') (h : c.Matches q c') {transform : Transform}
    {extent : Extent} (uniform : q.Compares → transform.Uniform ∧ extent.Uniform) :
    (transformed e c transform extent).Matches q (transformed e' c' transform extent) where
  parse path := by
    have slice : ∀ {w : World} (data : List UInt8), Concurs q w .value
        (do
          let decoded ← applyTransform e false data path transform
          return (← c.parseSlice decoded path).1)
        (do
          let decoded ← applyTransform e' false data path transform
          return (← c'.parseSlice decoded path).1) :=
      fun data => (concurs_applyTransform concur false data path fun c => (uniform c).1).both
        fun _ _ _ => (h.parseSlice _ path).bind fun _ _ _ _ related => concurs_pure related.1
    refine (concurs_evalExtent concur h (fun c => (uniform c).2) path).both fun _ _ found => ?_
    cases found with
    | some n => exact (concurs_read n path).both fun _ _ data => slice data
    | none => exact concurs_readAll.both fun _ _ data => slice data
  parseInline _ _ := concurs_refused _ _
  size contexts path := by
    cases extent with
    | ofChild => exact h.size contexts path
    | toEnd => exact concurs_unsized _ path
    | fixed n => exact e.concurs_staticSize concur (fun c => (uniform c).2) path contexts

theorem matches_recoded (h : c.Matches q c') (recoding : Recoding) (checked : Bool) :
    (recoded e c recoding checked).Matches q (recoded e' c' recoding checked) where
  parse path := by
    have inside : ∀ {w : World}, Concurs q w .value (inView recoding path (c.parse path))
        (inView recoding path (c'.parse path)) := concurs_inView (h.parse path) recoding path
    have entry : ∀ {w : World}, Concurs q w .same (checkEntry recoding path)
        (checkEntry recoding path) :=
      concurs_tell.both fun _ _ _ => concurs_ite (concurs_refused _ path) (concurs_pure rfl)
    exact concurs_ite (entry.both fun _ _ _ => inside) inside
  parseInline _ _ := concurs_refused _ _
  size contexts path := (h.size contexts path).both fun _ _ _ =>
    concurs_ite
      (Concurs.both (concurs_throw (Failure.Matches.refl _)) fun _ _ _ => concurs_pure rfl)
      (concurs_pure rfl)

end Codec

end BinaryFormat
