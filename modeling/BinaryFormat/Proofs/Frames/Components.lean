import BinaryFormat.Codec.Bytes
import BinaryFormat.Codec.Conversion
import BinaryFormat.Codec.Derived
import BinaryFormat.Codec.Number
import BinaryFormat.Codec.Position
import BinaryFormat.Codec.Text
import BinaryFormat.Proofs.Frames.Patches

/-!
# Frames around single components

Components that do not structure their values keep to the law of frames: those
at the leaves do not touch the context, and the others do to it what their own
component does.
-/

namespace BinaryFormat

namespace Codec

/-- The component cannot be embedded. -/
structure Closed (c : Codec) : Prop where
  parse : ∀ path overwrite, c.parseInline path overwrite = Run.fail (.misshapen .embedding) path
  build : ∀ input path, c.buildInline input path = Run.fail (.misshapen .embedding) path

variable {e : Engine} {t : Traits} {c : Codec} {P : Context → Prop}

theorem Closed.steady (closed : c.Closed)
    (parse : ∀ path base, (c.parse path).Keeps (Context.Calm t base))
    (build : ∀ v path base, Context.Anchors base t path →
      (c.build v path).Keeps (Context.Grows t base)) : c.Steady t where
  parse := parse
  build := build
  parseInline path overwrite base := by
    rw [closed.parse]
    exact Run.keeps_fail
  buildInline input path base _ := by
    rw [closed.build]
    exact Run.keeps_fail

/-! ## Bytes and markers -/

theorem steady_bytes (length : Expr) : (bytes e length).Steady t := by
  refine Closed.steady ⟨fun _ _ => rfl, fun _ _ => rfl⟩ (fun path base => ?_)
    fun v path base _ => ?_
  · exact .bind e.keeps_evalSize fun n => .bind Run.keeps_read fun _ => Run.keeps_pure
  · refine .bind e.keeps_evalSize fun n => ?_
    cases v with
    | bytes data => exact Run.keeps_guard (.bind Run.keeps_write fun _ => Run.keeps_pure)
    | _ => exact Run.keeps_fail

theorem steady_greedyBytes : greedyBytes.Steady t := by
  refine Closed.steady ⟨fun _ _ => rfl, fun _ _ => rfl⟩ (fun path base => ?_)
    fun v path base _ => ?_
  · exact .bind Run.keeps_readAll fun _ => Run.keeps_pure
  · cases v with
    | bytes data => exact .bind Run.keeps_write fun _ => Run.keeps_pure
    | _ => exact Run.keeps_fail

theorem steady_pass : pass.Steady t :=
  Closed.steady ⟨fun _ _ => rfl, fun _ _ => rfl⟩ (fun _ _ => Run.keeps_pure)
    fun _ _ _ _ => Run.keeps_pure

theorem steady_terminated : terminated.Steady t := by
  refine Closed.steady ⟨fun _ _ => rfl, fun _ _ => rfl⟩ (fun path base => ?_)
    fun _ _ _ _ => Run.keeps_pure
  exact .bind Run.keeps_tell fun _ => .bind Run.keeps_size fun _ =>
    Run.keeps_guard Run.keeps_pure

/-! ## Numbers -/

theorem steady_integer (width : Expr) (signed : Bool) (endian : Endian) :
    (integer e width signed endian).Steady t := by
  refine Closed.steady ⟨fun _ _ => rfl, fun _ _ => rfl⟩ (fun path base => ?_)
    fun v path base _ => ?_
  · exact .bind e.keeps_evalSize fun n => .bind Run.keeps_ofExcept fun _ =>
      .bind Run.keeps_read fun data => .bind Run.keeps_ofExcept fun _ => Run.keeps_pure
  · exact .bind e.keeps_evalSize fun n => .bind Run.keeps_ofExcept fun _ =>
      .bind Run.keeps_ofExcept fun _ => .bind Run.keeps_ofExcept fun _ =>
      .bind Run.keeps_write fun _ => Run.keeps_pure

theorem steady_bitInteger (width : Expr) (signed swapped : Bool) :
    (bitInteger e width signed swapped).Steady t := by
  refine Closed.steady ⟨fun _ _ => rfl, fun _ _ => rfl⟩ (fun path base => ?_)
    fun v path base _ => ?_
  · refine .bind e.keeps_evalSize fun n => .bind Run.keeps_ofExcept fun _ =>
      .bind Run.keeps_read fun units => Run.keeps_ite ?_ ?_
    · exact .bind Run.keeps_ofExcept fun _ => .bind Run.keeps_ofExcept fun _ => Run.keeps_pure
    · exact .bind Run.keeps_pure fun _ => .bind Run.keeps_ofExcept fun _ => Run.keeps_pure
  · refine .bind e.keeps_evalSize fun n => .bind Run.keeps_ofExcept fun _ =>
      .bind Run.keeps_ofExcept fun _ => .bind Run.keeps_ofExcept fun _ => Run.keeps_ite ?_ ?_
    · exact .bind Run.keeps_ofExcept fun _ => .bind Run.keeps_write fun _ => Run.keeps_pure
    · exact .bind Run.keeps_pure fun _ => .bind Run.keeps_write fun _ => Run.keeps_pure

theorem steady_flag : flag.Steady t := by
  refine Closed.steady ⟨fun _ _ => rfl, fun _ _ => rfl⟩ (fun path base => ?_)
    fun v path base _ => ?_
  · exact .bind Run.keeps_read fun _ => Run.keeps_pure
  · have rest : ∀ bit : Bool, (Run.write [Bits.unit bit] path >>= fun _ =>
        pure (Value.bool bit)).Keeps (Context.Grows t base) :=
      fun _ => .bind Run.keeps_write fun _ => Run.keeps_pure
    cases v with
    | bool b => exact .bind Run.keeps_pure rest
    | int n => exact .bind Run.keeps_pure rest
    | _ => exact .bind Run.keeps_fail rest

private theorem keeps_readFrom (maxBits : Nat) (path : Path) (more acc shift : Nat)
    (seen : List UInt8) : (Varint.readFrom maxBits path more acc shift seen).Keeps P := by
  induction more generalizing acc shift seen with
  | zero => exact Run.keeps_fail
  | succ more ih =>
      refine .bind Run.keeps_read fun data => Run.keeps_guard (Run.keeps_ite Run.keeps_pure ?_)
      exact ih _ _ _

private theorem keeps_readVarint (maxBits : Nat) (path : Path) :
    (Varint.read maxBits path).Keeps P :=
  .bind Run.keeps_available fun _ => keeps_readFrom maxBits path _ _ _ _

theorem steady_varint (maxBits : Nat) : (varint maxBits).Steady t := by
  refine Closed.steady ⟨fun _ _ => rfl, fun _ _ => rfl⟩ (fun path base => ?_)
    fun v path base _ => ?_
  · exact .bind (keeps_readVarint maxBits path) fun _ => Run.keeps_pure
  · exact .bind Run.keeps_ofExcept fun n => Run.keeps_guard (Run.keeps_guard
      (.bind Run.keeps_write fun _ => Run.keeps_pure))

theorem steady_zigzag : zigzag.Steady t := by
  refine Closed.steady ⟨fun _ _ => rfl, fun _ _ => rfl⟩ (fun path base => ?_)
    fun v path base _ => ?_
  · exact .bind (keeps_readVarint 128 path) fun _ => Run.keeps_pure
  · exact .bind Run.keeps_ofExcept fun n => .bind Run.keeps_write fun _ => Run.keeps_pure

theorem steady_real (width : RealWidth) (endian : Endian) : (real width endian).Steady t := by
  refine Closed.steady ⟨fun _ _ => rfl, fun _ _ => rfl⟩ (fun path base => ?_)
    fun v path base _ => ?_
  · exact .bind Run.keeps_read fun _ => Run.keeps_pure
  · unfold real
    dsimp only
    cases v.float? with
    | none => exact Run.keeps_fail
    | some x =>
        exact .bind Run.keeps_ofExcept fun _ => .bind Run.keeps_write fun _ => Run.keeps_pure

/-! ## Text -/

theorem steady_fixedText (length : Expr) (encoding : Encoding) (pad : Char) (side : PadSide)
    (trim : Option TrimEnd) : (fixedText e length encoding pad side trim).Steady t := by
  refine Closed.steady ⟨fun _ _ => rfl, fun _ _ => rfl⟩ (fun path base => ?_)
    fun v path base _ => ?_
  · exact .bind e.keeps_evalSize fun n => .bind Run.keeps_read fun data =>
      .bind Run.keeps_ofExcept fun _ => Run.keeps_ofExcept
  · exact .bind e.keeps_evalSize fun n => .bind Run.keeps_ofExcept fun _ =>
      .bind Run.keeps_ofExcept fun _ => .bind Run.keeps_ofExcept fun _ =>
      .bind Run.keeps_write fun _ => Run.keeps_pure

theorem steady_prefixedText {length : Part} (encoding : Encoding)
    (hl : length.codec.Steady t) : (prefixedText length encoding).Steady t := by
  refine Closed.steady ⟨fun _ _ => rfl, fun _ _ => rfl⟩ (fun path base => ?_)
    fun v path base anchored => ?_
  · refine .bind (hl.parse path base).tagged fun stored => ?_
    cases stored.int? with
    | none => exact .bind Run.keeps_dump fun _ => Run.keeps_fail
    | some n =>
        refine Run.keeps_ite (.bind Run.keeps_dump fun _ => .bind Run.keeps_fail fun _ => ?_) ?_
        · exact .bind Run.keeps_read fun _ => Run.keeps_ofExcept
        · exact .bind Run.keeps_read fun _ => Run.keeps_ofExcept
  · exact .bind Run.keeps_ofExcept fun data => .bind (hl.build _ path base anchored).tagged
      fun _ => .bind Run.keeps_write fun _ => Run.keeps_pure

private theorem keeps_readTerminated (unit : Nat) (terminators : List (List UInt8)) (path : Path)
    (more : Nat) (data : List UInt8) :
    (readTerminated unit terminators path more data).Keeps P := by
  induction more generalizing data with
  | zero => exact Run.keeps_fail
  | succ more ih =>
      refine .bind Run.keeps_read.outcome fun found => ?_
      cases found with
      | error failure =>
          dsimp only
          split
          · exact Run.keeps_fail
          · exact Run.keeps_throw
      | ok chunk => exact Run.keeps_ite Run.keeps_pure (ih _)

theorem steady_terminatedText (terminators : List (List UInt8)) (encoding : Encoding) :
    (terminatedText terminators encoding).Steady t := by
  refine Closed.steady ⟨fun _ _ => rfl, fun _ _ => rfl⟩ (fun path base => ?_)
    fun v path base _ => ?_
  · exact .bind Run.keeps_available fun _ => .bind (keeps_readTerminated _ _ _ _ _)
      fun _ => Run.keeps_ofExcept
  · refine .bind Run.keeps_ofExcept fun data => ?_
    cases terminators with
    | nil => exact Run.keeps_ite (.bind Run.keeps_dump fun _ => .bind Run.keeps_fail fun _ =>
        Run.keeps_fail) Run.keeps_fail
    | cons first others =>
      have write : Run.Keeps (Context.Grows t base)
          (Run.write (data ++ first) path >>= fun _ => pure v) :=
        .bind Run.keeps_write fun _ => Run.keeps_pure
      exact Run.keeps_ite (.bind Run.keeps_dump fun _ => .bind Run.keeps_fail fun _ => write) write

theorem steady_greedyText (encoding : Encoding) : (greedyText encoding).Steady t := by
  refine Closed.steady ⟨fun _ _ => rfl, fun _ _ => rfl⟩ (fun path base => ?_)
    fun v path base _ => ?_
  · exact .bind Run.keeps_readAll fun _ => Run.keeps_ofExcept
  · exact .bind Run.keeps_ofExcept fun _ => .bind Run.keeps_write fun _ => Run.keeps_pure

/-! ## Conversions -/

theorem steady_converted (hc : c.Steady t) (conversion : Conversion) :
    (converted c conversion).Steady t := by
  refine Closed.steady ⟨fun _ _ => rfl, fun _ _ => rfl⟩ (fun path base => ?_)
    fun v path base anchored => ?_
  · exact .bind (hc.parse path base) fun _ => Run.keeps_ofExcept
  · exact .bind Run.keeps_ofExcept fun raw => .bind (hc.build raw path base anchored)
      fun _ => Run.keeps_pure

theorem steady_convertedIn (hc : c.Steady t) (conversion : ScopedConversion) :
    (convertedIn c conversion).Steady t := by
  refine Closed.steady ⟨fun _ _ => rfl, fun _ _ => rfl⟩ (fun path base => ?_)
    fun v path base anchored => ?_
  · exact .bind (hc.parse path base) fun _ => .bind Run.keeps_scope fun _ => Run.keeps_settle
  · exact .bind Run.keeps_scope fun _ => .bind Run.keeps_settle fun raw =>
      .bind (hc.build raw path base anchored) fun _ => Run.keeps_pure

theorem steady_convertedBy (hc : c.Steady t) (decode encode : Expr) :
    (convertedBy e c decode encode).Steady t := by
  refine Closed.steady ⟨fun _ _ => rfl, fun _ _ => rfl⟩ (fun path base => ?_)
    fun v path base anchored => ?_
  · exact .bind (hc.parse path base) fun _ => e.keeps_evalOver
  · exact .bind e.keeps_evalOver fun raw => .bind (hc.build raw path base anchored)
      fun _ => Run.keeps_pure

private theorem keeps_isAmong (v : Value) (values : List Value) : (isAmong e v values).Keeps P := by
  induction values with
  | nil => exact Run.keeps_pure
  | cons other rest ih =>
      exact .bind e.keeps_equal fun same => Run.keeps_ite Run.keeps_pure ih

theorem keeps_validate (rule : Rule) (v : Value) (path : Path) :
    (validate e rule v path).Keeps P := by
  cases rule with
  | satisfies predicate =>
      refine .bind e.keeps_evalOver fun verdict => Run.keeps_ite ?_ Run.keeps_pure
      exact .bind Run.keeps_dump fun _ => Run.keeps_fail
  | oneOf allowed =>
      refine .bind (keeps_isAmong v allowed) fun found => Run.keeps_ite ?_ Run.keeps_pure
      exact .bind Run.keeps_dump fun _ => Run.keeps_fail
  | noneOf denied =>
      refine .bind (keeps_isAmong v denied) fun found => Run.keeps_ite ?_ Run.keeps_pure
      exact .bind Run.keeps_dump fun _ => Run.keeps_fail

theorem steady_validated (hc : c.Steady t) (rule : Rule) : (validated e c rule).Steady t := by
  refine Closed.steady ⟨fun _ _ => rfl, fun _ _ => rfl⟩ (fun path base => ?_)
    fun v path base anchored => ?_
  · exact .bind (hc.parse path base) fun v => .bind (keeps_validate rule v path)
      fun _ => Run.keeps_pure
  · exact .bind (keeps_validate rule v path) fun _ => hc.build v path base anchored

theorem steady_labelled (hc : c.Steady t) (labels : List (String × Int))
    (unlabelled : Unlabelled) : (labelled c labels unlabelled).Steady t := by
  refine Closed.steady ⟨fun _ _ => rfl, fun _ _ => rfl⟩ (fun path base => ?_)
    fun v path base anchored => ?_
  · refine .bind (hc.parse path base) fun raw => ?_
    cases raw.int? with
    | none => exact Run.keeps_fail
    | some n =>
        dsimp only
        split
        · exact Run.keeps_pure
        · exact Run.keeps_pure
        · exact Run.keeps_pure
        · exact Run.keeps_fail
  · have rest : ∀ n : Int, (c.build (.int n) path >>= fun _ => pure v).Keeps
        (Context.Grows t base) :=
      fun n => .bind (hc.build (.int n) path base anchored) fun _ => Run.keeps_pure
    cases v with
    | str label =>
        unfold labelled
        dsimp only
        cases numberOf? labels label with
        | none => exact .bind Run.keeps_fail rest
        | some n => exact .bind Run.keeps_pure rest
    | int n => exact .bind Run.keeps_pure rest
    | _ => exact .bind Run.keeps_fail rest

theorem keeps_findPair (v : Value) (table : List (Value × Value)) :
    (findPair e v table).Keeps P := by
  induction table with
  | nil => exact Run.keeps_pure
  | cons pair rest ih =>
      exact .bind e.keeps_equal fun same => Run.keeps_ite Run.keeps_pure ih

theorem steady_mapped (hc : c.Steady t) (table : List (Value × Value)) :
    (mapped e c table).Steady t := by
  refine Closed.steady ⟨fun _ _ => rfl, fun _ _ => rfl⟩ (fun path base => ?_)
    fun v path base anchored => ?_
  · refine .bind (hc.parse path base) fun raw => .bind (keeps_findPair raw table) fun found => ?_
    cases found with
    | none => exact .bind Run.keeps_dump fun _ => Run.keeps_fail
    | some shown => exact Run.keeps_pure
  · refine .bind (keeps_findPair v _) fun found => ?_
    cases found with
    | none => exact .bind Run.keeps_dump fun _ => Run.keeps_fail
    | some raw => exact .bind (hc.build raw path base anchored) fun _ => Run.keeps_pure

theorem steady_flagSet (hc : c.Steady t) (flags : List (String × Nat)) (strict : Bool) :
    (flagSet c flags strict).Steady t := by
  refine Closed.steady ⟨fun _ _ => rfl, fun _ _ => rfl⟩ (fun path base => ?_)
    fun v path base anchored => ?_
  · refine .bind (hc.parse path base) fun v => ?_
    cases v.int? with
    | none => exact Run.keeps_fail
    | some n =>
        exact Run.keeps_guard (Run.keeps_ite Run.keeps_pure (Run.keeps_guard Run.keeps_pure))
  · exact .bind Run.keeps_ofExcept fun raw => Run.keeps_guard
      (.bind (hc.build _ path base anchored) fun _ => Run.keeps_pure)

/-! ## Derived values -/

theorem steady_constant (hc : c.Steady t) (value : Value) : (constant e c value).Steady t := by
  refine Closed.steady ⟨fun _ _ => rfl, fun _ _ => rfl⟩ (fun path base => ?_)
    fun v path base anchored => hc.build value path base anchored
  refine .bind (hc.parse path base) fun found => .bind e.keeps_equal fun same => ?_
  refine Run.keeps_ite ?_ Run.keeps_pure
  exact .bind Run.keeps_dump fun _ => .bind Run.keeps_dump fun _ => .bind Run.keeps_fail
    fun _ => Run.keeps_pure

theorem steady_computed (expr : Expr) : (computed e expr).Steady t :=
  Closed.steady ⟨fun _ _ => rfl, fun _ _ => rfl⟩ (fun _ _ => e.keeps_eval)
    fun _ _ _ _ => e.keeps_eval

theorem steady_fallback (hc : c.Steady t) (value : Value) : (fallback c value).Steady t :=
  Closed.steady ⟨fun _ _ => rfl, fun _ _ => rfl⟩ hc.parse
    fun _ path base anchored => hc.build _ path base anchored

theorem steady_check (condition : Expr) : (check e condition).Steady t :=
  Closed.steady ⟨fun _ _ => rfl, fun _ _ => rfl⟩
    (fun _ _ => .bind e.keeps_evalHolds fun _ => Run.keeps_ite Run.keeps_pure Run.keeps_fail)
    fun _ _ _ _ => .bind e.keeps_evalHolds fun _ => Run.keeps_ite Run.keeps_pure Run.keeps_fail

theorem steady_explicit (message : String) : (explicit message).Steady t :=
  Closed.steady ⟨fun _ _ => rfl, fun _ _ => rfl⟩ (fun _ _ => Run.keeps_fail)
    fun _ _ _ _ => Run.keeps_fail

/-! ## Position -/

private theorem keeps_atOffset {α : Type} {x : Run α} (offset : Expr) (path : Path)
    (h : x.Keeps P) :
    (atOffset e offset path x).Keeps P :=
  .bind e.keeps_evalInt fun _ => .bind Run.keeps_tell fun _ => .bind Run.keeps_ofExcept fun _ =>
    .bind Run.keeps_seek fun _ => .bind h.outcome fun _ => .bind Run.keeps_goTo fun _ =>
    Run.keeps_settle

theorem steady_pointer {p : Part} (offset : Expr) (hc : p.codec.Steady t) :
    (pointer e offset p).Steady t :=
  Closed.steady ⟨fun _ _ => rfl, fun _ _ => rfl⟩
    (fun path base => keeps_atOffset offset path (hc.parse path base).tagged)
    fun v path base anchored => keeps_atOffset offset path (hc.build v path base anchored).tagged

theorem steady_peek {p : Part} (hc : p.codec.Steady t) : (peek p).Steady t := by
  refine Closed.steady ⟨fun _ _ => rfl, fun _ _ => rfl⟩ (fun path base => ?_)
    fun _ _ _ _ => Run.keeps_pure
  refine .bind Run.keeps_tell fun _ => .bind (hc.parse path base).tagged.outcome fun result =>
    .bind Run.keeps_goTo fun _ => ?_
  cases result with
  | ok v => exact Run.keeps_pure
  | error failure => exact Run.keeps_ite Run.keeps_throw Run.keeps_pure

private theorem keeps_applySeek (target : Expr) (whence : Whence) (path : Path) :
    (applySeek e target whence path).Keeps P :=
  .bind e.keeps_evalInt fun _ => .bind Run.keeps_ofExcept fun _ => .bind Run.keeps_seek fun _ =>
    Run.keeps_pure

theorem steady_seek (target : Expr) (whence : Whence) : (seek e target whence).Steady t :=
  Closed.steady ⟨fun _ _ => rfl, fun _ _ => rfl⟩ (fun path _ => keeps_applySeek target whence path)
    fun _ path _ _ => keeps_applySeek target whence path

theorem steady_tell : tell.Steady t :=
  Closed.steady ⟨fun _ _ => rfl, fun _ _ => rfl⟩
    (fun _ _ => .bind Run.keeps_tell fun _ => Run.keeps_pure)
    fun _ _ _ _ => .bind Run.keeps_tell fun _ => Run.keeps_pure

private theorem keeps_skipFill (fill : Fill) (count : Nat) (path : Path) :
    (skipFill fill count path).Keeps P := by
  refine .bind Run.keeps_read fun data => Run.keeps_ite ?_ Run.keeps_pure
  cases firstOther fill.pattern 0 data with
  | none => exact Run.keeps_pure
  | some other => exact Run.keeps_fail

theorem keeps_writeFill (fill : Fill) (count : Nat) (path : Path) :
    (writeFill fill count path).Keeps P := Run.keeps_write

theorem keeps_remainder (total used : Nat) (path : Path) : (remainder total used path).Keeps P :=
  Run.keeps_ite Run.keeps_pure Run.keeps_fail

theorem steady_padding (length : Expr) (fill : Fill) : (padding e length fill).Steady t :=
  Closed.steady ⟨fun _ _ => rfl, fun _ _ => rfl⟩
    (fun path _ => .bind e.keeps_evalSize fun n => .bind (keeps_skipFill fill n path) fun _ =>
      Run.keeps_pure)
    fun _ path _ _ => .bind e.keeps_evalSize fun n => .bind (keeps_writeFill fill n path)
      fun _ => Run.keeps_pure

theorem steady_padded (length : Expr) (hc : c.Steady t) (fill : Fill) :
    (padded e length c fill).Steady t := by
  refine Closed.steady ⟨fun _ _ => rfl, fun _ _ => rfl⟩ (fun path base => ?_)
    fun v path base anchored => ?_
  · exact .bind e.keeps_evalSize fun n => .bind Run.keeps_tell fun _ =>
      .bind (hc.parse path base) fun _ => .bind Run.keeps_tell fun _ =>
      .bind (keeps_remainder _ _ path) fun left => .bind (keeps_skipFill fill left path) fun _ =>
      Run.keeps_pure
  · exact .bind e.keeps_evalSize fun n => .bind Run.keeps_tell fun _ =>
      .bind (hc.build v path base anchored) fun _ => .bind Run.keeps_tell fun _ =>
      .bind (keeps_remainder _ _ path) fun left => .bind (keeps_writeFill fill left path) fun _ =>
      Run.keeps_pure

theorem keeps_evalModulus (modulus : Expr) (path : Path) :
    (evalModulus e modulus path).Keeps P :=
  .bind e.keeps_evalSize fun _ => Run.keeps_guard Run.keeps_pure

theorem steady_aligned (modulus : Expr) (hc : c.Steady t) (fill : Fill) :
    (aligned e modulus c fill).Steady t := by
  refine Closed.steady ⟨fun _ _ => rfl, fun _ _ => rfl⟩ (fun path base => ?_)
    fun v path base anchored => ?_
  · exact .bind (keeps_evalModulus modulus path) fun m => .bind Run.keeps_tell fun _ =>
      .bind (hc.parse path base) fun _ => .bind Run.keeps_tell fun _ =>
      .bind (keeps_skipFill fill _ path) fun _ => Run.keeps_pure
  · exact .bind (keeps_evalModulus modulus path) fun m => .bind Run.keeps_tell fun _ =>
      .bind (hc.build v path base anchored) fun _ => .bind Run.keeps_tell fun _ =>
      .bind (keeps_writeFill fill _ path) fun _ => Run.keeps_pure

/-! ## Back-patches -/

/-- What is to be known of a component whose value is computed. -/
structure Computable (t : Traits) (p : Part) : Prop where
  codec : p.codec.Steady t
  some : ¬ t.free
  within : t.loose.Within p.format.traits
  simple : t.single → p.format.PatchFree

theorem steady_rebuild {p : Part} (hp : Computable t p) (expr : Expr) :
    (rebuild e p expr).Steady t := by
  refine Closed.steady ⟨fun _ _ => rfl, fun _ _ => rfl⟩ hp.codec.parse
    fun v path base anchored => ?_
  refine .bind e.keeps_eval.outcome fun result => ?_
  cases result with
  | ok value => exact hp.codec.build value path base anchored
  | error failure =>
      refine Run.keeps_ite (.bind (p.codec.keeps_sizeNow).outcome fun size => ?_) Run.keeps_throw
      cases size with
      | ok n => exact keeps_reserve hp.some hp.within hp.simple anchored
      | error failure => exact Run.keeps_throw

private theorem keeps_digestsAgree (stored computed : Value) :
    (digestsAgree e stored computed).Keeps P := by
  unfold digestsAgree
  split
  · exact Run.keeps_pure
  · exact Run.keeps_pure
  · exact e.keeps_equal

theorem steady_checksum {p : Part} (hp : Computable t p) (hash : Hash) (data : Expr) :
    (checksum e p hash data).Steady t := by
  refine Closed.steady ⟨fun _ _ => rfl, fun _ _ => rfl⟩ (fun path base => ?_)
    fun v path base anchored => ?_
  · refine .bind (hp.codec.parse path base) fun stored => .bind e.keeps_eval fun input =>
      .bind Run.keeps_ofExcept fun computed => .bind (keeps_digestsAgree stored computed)
      fun agree => Run.keeps_ite ?_ Run.keeps_pure
    exact .bind Run.keeps_dump fun _ => .bind Run.keeps_dump fun _ => .bind Run.keeps_fail
      fun _ => Run.keeps_pure
  · have compute : Run.Keeps (Context.Grows t base) (do
        let input ← e.eval data path
        Run.ofExcept path (Checksum.digest hash input)) :=
      .bind e.keeps_eval fun _ => Run.keeps_ofExcept
    refine .bind compute.outcome fun result => ?_
    cases result with
    | ok digest => exact hp.codec.build digest path base anchored
    | error failure =>
        refine Run.keeps_ite ?_ Run.keeps_throw
        exact keeps_reserve hp.some hp.within hp.simple anchored

end Codec

end BinaryFormat
