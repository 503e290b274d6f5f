import BinaryFormat.Codec.Bytes
import BinaryFormat.Codec.Conversion
import BinaryFormat.Codec.Derived
import BinaryFormat.Codec.Number
import BinaryFormat.Codec.Position
import BinaryFormat.Codec.Text
import BinaryFormat.Proofs.Twins.Lazy

/-!
# Fair components

Parsing uses of a stream what is left of it and where it stands, and of the frames the
values of expressions.  A component whose expressions come to the same over paired
frames is fair.
-/

namespace BinaryFormat

open Lookup Run

variable {admitted : String → Prop} {loose : Bool} {w : Pairing admitted loose}

/-! ## Expressions in a run -/

namespace Engine

variable {e : Engine} (fair : e.Fair admitted) {x : Expr} (named : loose = true → x.isNamed)
  (path : Path)
include fair named

theorem fair_eval : (e.eval x path).Fair w :=
  twins_scope.bind fun _ _ scopes =>
    twins_lookup (Expr.alike_evaluate fair.resolver scopes path x named)

theorem fair_evalInt : (e.evalInt x path).Fair w :=
  twins_scope.bind fun _ _ scopes =>
    twins_lookup (Expr.alike_evaluateInt fair.resolver scopes path x named)

theorem fair_evalSize : (e.evalSize x path).Fair w :=
  twins_scope.bind fun _ _ scopes =>
    twins_lookup (Expr.alike_evaluateSize fair.resolver scopes path x named)

theorem fair_evalHolds : (e.evalHolds x path).Fair w :=
  twins_scope.bind fun _ _ scopes =>
    twins_lookup (Expr.alike_evaluateHolds fair.resolver scopes path x named)

theorem fair_evalOver (object : Value) : (e.evalOver x object path).Fair w :=
  twins_scope.bind fun scope scope' scopes => by
    have seen : PairedScopes loose w.depth { scope with object := some object }
        { scope' with object := some object } := ⟨scopes.frames, rfl, scopes.list⟩
    exact twins_lookup (Expr.alike_evaluate fair.resolver seen path x named)

theorem alike_staticSize {depth : Nat} {ctx ctx' : Context}
    (contexts : PairedContexts loose depth ctx ctx') :
    (e.staticSize x ctx path).Alike admitted (e.staticSize x ctx' path) := by
  have size := Expr.alike_evaluateSize fair.resolver contexts.scopes path x named
  refine size.outcome.both fun found => ?_
  cases found with
  | ok n => exact alike_pure n
  | error failure => exact alike_throw _

end Engine

namespace Engine

variable {e : Engine} (fair : e.Fair admitted)
include fair

theorem fair_equal (a b : Value) : (e.equal a b).Fair w :=
  twins_lookup (Resolver.alike_equal fair.resolver a b)

end Engine

/-! ## Components -/

namespace Codec

/-- Parsing and sizing come to the same from paired states; members are inlined into a frame
that is the same. -/
structure Fair (admitted : String → Prop) (loose : Bool) (c : Codec) : Prop where
  parse : ∀ (w : Pairing admitted loose) (path : Path), (c.parse path).Fair w
  parseInline : ∀ (w : Pairing admitted loose) (path : Path) (overwrite : Bool),
    (c.parseInline path overwrite).Fair w.pushed
  size : ∀ {depth : Nat} {ctx ctx' : Context}, PairedContexts loose depth ctx ctx' →
    ∀ path, (c.size ctx path).Alike admitted (c.size ctx' path)

theorem alike_unsized (cause : Unsized) (path : Path) :
    (unsized cause path).Alike admitted (unsized cause path) := alike_throw _

variable {e : Engine} {c d : Codec} {p q : Part} {x : Expr}

theorem Fair.sizeNow (h : c.Fair admitted loose) (path : Path) : (c.sizeNow path).Fair w :=
  twins_context.bind fun _ _ contexts => twins_lookup (h.size contexts path)

theorem Fair.parsePart (h : p.codec.Fair admitted loose) (path : Path) : (p.parse path).Fair w :=
  (h.parse w path).tagged

theorem Fair.parseSlice (h : c.Fair admitted loose) (data : List UInt8) (path : Path) :
    (c.parseSlice data path).Fair w :=
  .bind ((h.parse w.alone path).onStream (.memory data)) fun _ => fair_pure _

/-! ### Bytes and markers -/

theorem fair_bytes (fair : e.Fair admitted) (named : loose = true → x.isNamed) :
    (bytes e x).Fair admitted loose where
  parse _ path := .bind (e.fair_evalSize fair named path) fun n =>
    .bind (fair_read n path) fun _ => fair_pure _
  parseInline _ _ _ := fair_fail _ _
  size contexts path := e.alike_staticSize fair named path contexts

theorem fair_greedyBytes : greedyBytes.Fair admitted loose where
  parse _ _ := .bind fair_readAll fun _ => fair_pure _
  parseInline _ _ _ := fair_fail _ _
  size _ path := alike_unsized _ path

theorem fair_pass : pass.Fair admitted loose where
  parse _ _ := fair_pure _
  parseInline _ _ _ := fair_fail _ _
  size _ _ := alike_pure _

theorem fair_terminated : terminated.Fair admitted loose where
  parse _ _ := .bind fair_tell fun _ => .bind fair_size fun _ => fair_guard (fair_pure _)
  parseInline _ _ _ := fair_fail _ _
  size _ _ := alike_pure _

/-! ### Numbers -/

theorem fair_integer (fair : e.Fair admitted) (named : loose = true → x.isNamed) (signed : Bool)
    (endian : Endian) : (integer e x signed endian).Fair admitted loose where
  parse _ path := .bind (e.fair_evalSize fair named path) fun n =>
    .bind (fair_ofExcept _ _) fun _ => .bind (fair_read n path) fun _ =>
      .bind (fair_ofExcept _ _) fun _ => fair_pure _
  parseInline _ _ _ := fair_fail _ _
  size contexts path := e.alike_staticSize fair named path contexts

theorem fair_bitInteger (fair : e.Fair admitted) (named : loose = true → x.isNamed)
    (signed swapped : Bool) : (bitInteger e x signed swapped).Fair admitted loose where
  parse w path := by
    refine .bind (e.fair_evalSize fair named path) fun n => .bind (fair_ofExcept _ _) fun _ =>
      .bind (fair_read n path) fun units => ?_
    have number : ∀ units : List UInt8, Run.Fair w (do
        return Value.int
          (← Run.ofExcept path (Integer.ofPattern (Bits.toNat units) n signed))) :=
      fun _ => .bind (fair_ofExcept _ _) fun _ => fair_pure _
    exact fair_ite (.bind (fair_ofExcept _ _) number) (number units)
  parseInline _ _ _ := fair_fail _ _
  size contexts path := e.alike_staticSize fair named path contexts

theorem fair_flag : flag.Fair admitted loose where
  parse _ path := .bind (fair_read 1 path) fun _ => fair_pure _
  parseInline _ _ _ := fair_fail _ _
  size _ _ := alike_pure _

/-- How often a reader may still read does not matter while it may read more often than there
is something left. -/
private theorem readFrom_eq (maxBits : Nat) (path : Path) : ∀ (more more' acc shift : Nat)
    (seen : List UInt8) (s : State), s.stream.left.length < more → s.stream.left.length < more' →
      Varint.readFrom maxBits path more acc shift seen s =
        Varint.readFrom maxBits path more' acc shift seen s := by
  intro more
  induction more with
  | zero =>
      intro more' acc shift seen s low
      exact absurd low (Nat.not_lt_zero _)
  | succ more ih =>
      intro more' acc shift seen s low low'
      obtain ⟨more', rfl⟩ := Nat.exists_eq_add_of_le' (Nat.lt_of_le_of_lt (Nat.zero_le _) low')
      rw [Varint.readFrom, Varint.readFrom]
      cases read : Run.read 1 path s with
      | error failure s' => rw [bind_of_error read, bind_of_error read]
      | ok data s' =>
          have less := length_left_of_read read
          rw [bind_of_ok read, bind_of_ok read]
          dsimp only
          split
          · rfl
          · split
            · rfl
            · exact ih _ _ _ _ _ (by omega) (by omega)

private theorem fair_readFrom (maxBits : Nat) (path : Path) : ∀ (more acc shift : Nat)
    (seen : List UInt8),
    (Varint.readFrom maxBits path more acc shift seen).Fair w
  | 0, _, _, _ => fair_fail _ _
  | more + 1, _, _, _ => .bind (fair_read 1 path) fun _ =>
      fair_guard (fair_ite (fair_pure _) (fair_readFrom maxBits path more _ _ _))

private theorem fair_readVarint (maxBits : Nat) (path : Path) : (Varint.read maxBits path).Fair w :=
  fair_available (fun n m s => readFrom_eq maxBits path n m 0 0 [] s) fun n =>
    fair_readFrom maxBits path n 0 0 []

theorem fair_varint (maxBits : Nat) : (varint maxBits).Fair admitted loose where
  parse _ path := .bind (fair_readVarint maxBits path) fun _ => fair_pure _
  parseInline _ _ _ := fair_fail _ _
  size _ path := alike_unsized _ path

theorem fair_zigzag : zigzag.Fair admitted loose where
  parse _ path := .bind (fair_readVarint 128 path) fun _ => fair_pure _
  parseInline _ _ _ := fair_fail _ _
  size _ path := alike_unsized _ path

theorem fair_real (width : RealWidth) (endian : Endian) :
    (real width endian).Fair admitted loose where
  parse _ path := .bind (fair_read _ path) fun _ => fair_pure _
  parseInline _ _ _ := fair_fail _ _
  size _ _ := alike_pure _

/-! ### Text -/

theorem fair_fixedText (fair : e.Fair admitted) (named : loose = true → x.isNamed)
    (encoding : Encoding) (pad : Char) (side : PadSide) (trim : Option TrimEnd) :
    (fixedText e x encoding pad side trim).Fair admitted loose where
  parse _ path := .bind (e.fair_evalSize fair named path) fun n =>
    .bind (fair_read n path) fun _ => .bind (fair_ofExcept _ _) fun _ => fair_ofExcept _ _
  parseInline _ _ _ := fair_fail _ _
  size contexts path := e.alike_staticSize fair named path contexts

theorem fair_prefixedText (h : p.codec.Fair admitted loose) (encoding : Encoding) :
    (prefixedText p encoding).Fair admitted loose where
  parse w path := by
    refine .bind (h.parsePart path) fun stored => ?_
    cases stored.int? with
    | none => exact .bind (fair_dump _) fun _ => fair_fail _ _
    | some n =>
        have text : (Run.read (n.toNat % Nat.pow 2 64) path >>= fun data =>
            Run.ofExcept path (TextField.decode encoding data)).Fair w :=
          .bind (fair_read _ path) fun _ => fair_ofExcept _ _
        exact fair_ite (.bind (fair_dump _) fun _ => .bind (fair_fail _ _) fun _ => text) text
  parseInline _ _ _ := fair_fail _ _
  size _ path := alike_unsized _ path

private theorem readTerminated_eq {unit : Nat} (positive : 0 < unit)
    (terminators : List (List UInt8))
    (path : Path) : ∀ (more more' : Nat) (data : List UInt8) (s : State),
      s.stream.left.length < more → s.stream.left.length < more' →
      readTerminated unit terminators path more data s =
        readTerminated unit terminators path more' data s := by
  intro more
  induction more with
  | zero =>
      intro more' data s low
      exact absurd low (Nat.not_lt_zero _)
  | succ more ih =>
      intro more' data s low low'
      obtain ⟨more', rfl⟩ := Nat.exists_eq_add_of_le' (Nat.lt_of_le_of_lt (Nat.zero_le _) low')
      rw [readTerminated, readTerminated]
      cases read : Run.read unit path s with
      | error failure s' =>
          rw [bind_of_ok (outcome_of_error read), bind_of_ok (outcome_of_error read)]
      | ok chunk s' =>
          have less := length_left_of_read read
          rw [bind_of_ok (outcome_of_ok read), bind_of_ok (outcome_of_ok read)]
          dsimp only
          split
          · rfl
          · exact ih _ _ _ (by omega) (by omega)

private theorem fair_readTerminated (unit : Nat) (terminators : List (List UInt8)) (path : Path) :
    ∀ (more : Nat) (data : List UInt8), (readTerminated unit terminators path more data).Fair w
  | 0, _ => fair_fail _ _
  | more + 1, data => by
      refine .bind (fair_read unit path).outcome fun found => ?_
      cases found with
      | error failure =>
          dsimp only
          split
          · exact fair_fail _ _
          · exact fair_throw _
      | ok chunk =>
          exact fair_ite (fair_pure _) (fair_readTerminated unit terminators path more _)

theorem fair_terminatedText (terminators : List (List UInt8)) (encoding : Encoding) :
    (terminatedText terminators encoding).Fair admitted loose where
  parse w path := by
    have positive : 0 < encoding.unit := by cases encoding <;> decide
    have data : Run.Fair w (do
        readTerminated encoding.unit terminators path ((← available) + 1) []) :=
      fair_available (fun n m s => readTerminated_eq positive terminators path n m [] s) fun n =>
        fair_readTerminated _ terminators path n []
    exact data.bind fun data => fair_ofExcept path (TextField.decode encoding data)
  parseInline _ _ _ := fair_fail _ _
  size _ path := alike_unsized _ path

theorem fair_greedyText (encoding : Encoding) : (greedyText encoding).Fair admitted loose where
  parse _ _ := .bind fair_readAll fun _ => fair_ofExcept _ _
  parseInline _ _ _ := fair_fail _ _
  size _ path := alike_unsized _ path

end Codec

end BinaryFormat
