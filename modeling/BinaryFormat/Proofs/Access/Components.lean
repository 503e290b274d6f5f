import BinaryFormat.Codec.Bytes
import BinaryFormat.Codec.Conversion
import BinaryFormat.Codec.Derived
import BinaryFormat.Codec.Number
import BinaryFormat.Codec.Position
import BinaryFormat.Codec.Text
import BinaryFormat.Proofs.Access.Forcing

/-!
# Components that match

A component parses to values that match from matching states, if its expressions
treat matching values alike and the components inside it do the same.
-/

namespace BinaryFormat

open Run

variable {q : Setting} {w : World} {e e' : Engine} {v v' : Value}

/-! ## Expressions in a run -/

namespace Engine

variable {x : Expr} (concur : e.Matches q e') (uniform : q.Compares → x.Uniform) (path : Path)
include concur uniform

theorem concurs_eval : Concurs q w .value (e.eval x path) (e'.eval x path) :=
  concurs_scope.bind fun _ _ _ _ scopes =>
    concurs_lookup (Expr.concurs_evaluate concur.resolver uniform scopes path)

theorem concurs_evalInt : Concurs q w .same (e.evalInt x path) (e'.evalInt x path) :=
  concurs_scope.bind fun _ _ _ _ scopes =>
    concurs_lookup (Expr.concurs_evaluateInt concur.resolver uniform scopes path)

theorem concurs_evalSize : Concurs q w .same (e.evalSize x path) (e'.evalSize x path) :=
  concurs_scope.bind fun _ _ _ _ scopes =>
    concurs_lookup (Expr.concurs_evaluateSize concur.resolver uniform scopes path)

theorem concurs_evalHolds : Concurs q w .same (e.evalHolds x path) (e'.evalHolds x path) :=
  concurs_scope.bind fun _ _ _ _ scopes =>
    concurs_lookup (Expr.concurs_evaluateHolds concur.resolver uniform scopes path)

theorem concurs_evalOver (object : v.Matches w.Related v') :
    Concurs q w .value (e.evalOver x v path) (e'.evalOver x v' path) :=
  concurs_scope.bind fun w' later scope scope' scopes =>
    have seen : Scope.Matches w'.Related { scope with object := some v }
        { scope' with object := some v' } :=
      ⟨scopes.frames, .some (object.mono later.related), scopes.list⟩
    concurs_lookup (Expr.concurs_evaluate concur.resolver uniform seen path)

theorem concurs_staticSize {ctx ctx' : Context} (contexts : ctx.Matches w.Related ctx') :
    Concurs q w .same (e.staticSize x ctx path) (e'.staticSize x ctx' path) := by
  have size := Expr.concurs_evaluateSize concur.resolver uniform contexts.scope path
  refine (Lookup.concurs_outcome size).bind fun _ _ found found' same => ?_
  cases same with
  | ok same => exact concurs_pure same
  | error failures => exact concurs_throw (Fault.Matches.atPath (.count _ failures.fault) path)

end Engine

theorem Engine.concurs_equal (concur : e.Matches q e') {a a' b b' : Value}
    (left : a.Matches w.Related a') (right : b.Matches w.Related b') :
    Concurs q w .same (e.equal a b) (e'.equal a' b') :=
  concurs_lookup (Resolver.concurs_equal concur.resolver left right)

theorem Concurs.over_constant {ε S α : Type} [HoldsStore S] [Refusal ε] {A : Likeness α}
    {x y : EStateM ε S α} {constant : Value} (eager : q.Compares → constant.Eager)
    (h : ∀ {w : World}, constant.Matches w.Related constant → Concurs q w A x y) :
    Concurs q w A x y :=
  .when (fun compares => h (Value.matches_of_eager (eager compares)))
    (h (Value.matches_self (fun _ => trivial) constant))

/-! ## Components -/

/-- Components whose runs concur. -/
structure Codec.Matches (q : Setting) (c c' : Codec) : Prop where
  parse : ∀ {w : World} (path : Path), Concurs q w .value (c.parse path) (c'.parse path)
  parseInline : ∀ {w : World} (path : Path) (overwrite : Bool),
    Concurs q w .same (c.parseInline path overwrite) (c'.parseInline path overwrite)
  size : ∀ {w : World} {ctx ctx' : Context}, ctx.Matches w.Related ctx' → ∀ path,
    Concurs q w .same (c.size ctx path) (c'.size ctx' path)

/-- One format with two meanings that match. -/
structure Part.Matches (q : Setting) (p p' : Part) : Prop where
  format : p.format = p'.format
  codec : p.codec.Matches q p'.codec
  uniform : q.Compares → p.format.Uniform

namespace Codec

variable {c c' : Codec} {p p' : Part} {x : Expr}

theorem concurs_unsized (cause : Unsized) (path : Path) :
    Concurs q w .same (unsized cause path) (unsized cause path) :=
  concurs_throw (Failure.Matches.refl _)

theorem Matches.sizeNow (h : c.Matches q c') (path : Path) :
    Concurs q w .same (c.sizeNow path) (c'.sizeNow path) :=
  concurs_context.bind fun _ _ _ _ contexts => concurs_lookup (h.size contexts path)

theorem Matches.parsePart (h : p.codec.Matches q p'.codec) (path : Path) :
    Concurs q w .value (p.parse path) (p'.parse path) :=
  concurs_tagged (h.parse path)

theorem Matches.parseSlice (h : c.Matches q c') (data : List UInt8) (path : Path) :
    Concurs q w (.both .value .same) (c.parseSlice data path) (c'.parseSlice data path) :=
  (concurs_onStream (h.parse path) (.memory data)).bind fun _ _ _ _ related =>
    concurs_pure ⟨related.1, congrArg Stream.pos related.2⟩

theorem concurs_plain {ε S : Type} [HoldsStore S] [Refusal ε] (plain : v.IsPlain) :
    Concurs q w .value (pure v : EStateM ε S Value) (pure v) :=
  concurs_pure (.plain plain)

/-! ### Bytes and markers -/

theorem matches_bytes (concur : e.Matches q e') (uniform : q.Compares → x.Uniform) :
    (bytes e x).Matches q (bytes e' x) where
  parse path := (e.concurs_evalSize concur uniform path).both fun _ _ n =>
    (concurs_read n path).both fun _ _ _ => concurs_plain trivial
  parseInline _ _ := concurs_refused _ _
  size contexts path := e.concurs_staticSize concur uniform path contexts

theorem matches_greedyBytes : greedyBytes.Matches q greedyBytes where
  parse _ := concurs_readAll.both fun _ _ _ => concurs_plain trivial
  parseInline _ _ := concurs_refused _ _
  size _ path := concurs_unsized _ path

theorem matches_pass : pass.Matches q pass where
  parse _ := concurs_plain trivial
  parseInline _ _ := concurs_refused _ _
  size _ _ := concurs_pure rfl

theorem matches_terminated : terminated.Matches q terminated where
  parse _ := concurs_tell.both fun _ _ _ => concurs_size.both fun _ _ _ =>
    concurs_guard (concurs_plain trivial)
  parseInline _ _ := concurs_refused _ _
  size _ _ := concurs_pure rfl

/-! ### Numbers -/

theorem matches_integer (concur : e.Matches q e') (uniform : q.Compares → x.Uniform) (signed : Bool)
    (endian : Endian) : (integer e x signed endian).Matches q (integer e' x signed endian) where
  parse path := (e.concurs_evalSize concur uniform path).both fun _ _ n =>
    (concurs_result path _).both fun _ _ _ => (concurs_read n path).both fun _ _ _ =>
      (concurs_result path _).both fun _ _ _ => concurs_plain trivial
  parseInline _ _ := concurs_refused _ _
  size contexts path := e.concurs_staticSize concur uniform path contexts

theorem matches_bitInteger (concur : e.Matches q e') (uniform : q.Compares → x.Uniform)
    (signed swapped : Bool) :
    (bitInteger e x signed swapped).Matches q (bitInteger e' x signed swapped) where
  parse path := by
    refine (e.concurs_evalSize concur uniform path).both fun _ _ n =>
      (concurs_result path _).both fun _ _ _ => (concurs_read n path).both fun _ _ units => ?_
    have number : ∀ {w : World} (units : List UInt8), Concurs q w .value
        (do return Value.int (← Run.ofExcept path (Integer.ofPattern (Bits.toNat units) n signed)))
        (do return Value.int (← Run.ofExcept path
          (Integer.ofPattern (Bits.toNat units) n signed))) :=
      fun _ => (concurs_result path _).both fun _ _ _ => concurs_plain trivial
    exact concurs_ite ((concurs_result path _).both fun _ _ units => number units) (number units)
  parseInline _ _ := concurs_refused _ _
  size contexts path := e.concurs_staticSize concur uniform path contexts

theorem matches_flag : flag.Matches q flag where
  parse path := (concurs_read 1 path).both fun _ _ _ => concurs_plain trivial
  parseInline _ _ := concurs_refused _ _
  size _ _ := concurs_pure rfl

private theorem concurs_readFrom (maxBits : Nat) (path : Path) : ∀ {w : World}
    (more acc shift : Nat)
    (seen : List UInt8), Concurs q w .same (Varint.readFrom maxBits path more acc shift seen)
      (Varint.readFrom maxBits path more acc shift seen)
  | _, 0, _, _, _ => concurs_refused _ _
  | _, more + 1, _, _, _ => (concurs_read 1 path).both fun _ _ _ =>
      concurs_guard (concurs_ite (concurs_pure rfl) (concurs_readFrom maxBits path more _ _ _))

private theorem concurs_readVarint (maxBits : Nat) (path : Path) :
    Concurs q w .same (Varint.read maxBits path) (Varint.read maxBits path) :=
  concurs_available.both fun _ _ n => concurs_readFrom maxBits path (n + 1) 0 0 []

theorem matches_varint (maxBits : Nat) : (varint maxBits).Matches q (varint maxBits) where
  parse path := (concurs_readVarint maxBits path).both fun _ _ _ => concurs_plain trivial
  parseInline _ _ := concurs_refused _ _
  size _ path := concurs_unsized _ path

theorem matches_zigzag : zigzag.Matches q zigzag where
  parse path := (concurs_readVarint 128 path).both fun _ _ _ => concurs_plain trivial
  parseInline _ _ := concurs_refused _ _
  size _ path := concurs_unsized _ path

theorem matches_real (width : RealWidth) (endian : Endian) :
    (real width endian).Matches q (real width endian) where
  parse path := (concurs_read _ path).both fun _ _ _ => concurs_plain trivial
  parseInline _ _ := concurs_refused _ _
  size _ _ := concurs_pure rfl

/-! ### Text -/

private theorem concurs_text (encoding : Encoding) (data : List UInt8) (path : Path) :
    Concurs q w .value (Run.ofExcept path (TextField.decode encoding data))
      (Run.ofExcept path (TextField.decode encoding data)) := by
  unfold TextField.decode
  cases encoding.decode data with
  | ok text => exact concurs_plain trivial
  | error cause => exact concurs_refused _ path

theorem matches_fixedText (concur : e.Matches q e') (uniform : q.Compares → x.Uniform)
    (encoding : Encoding) (pad : Char) (side : PadSide) (trim : Option TrimEnd) :
    (fixedText e x encoding pad side trim).Matches q (fixedText e' x encoding pad side trim) where
  parse path := (e.concurs_evalSize concur uniform path).both fun _ _ n =>
    (concurs_read n path).both fun _ _ _ => (concurs_result path _).both fun _ _ _ =>
      concurs_text encoding _ path
  parseInline _ _ := concurs_refused _ _
  size contexts path := e.concurs_staticSize concur uniform path contexts

theorem matches_prefixedText (h : p.codec.Matches q p'.codec) (encoding : Encoding) :
    (prefixedText p encoding).Matches q (prefixedText p' encoding) where
  parse path := by
    refine (h.parsePart path).bind fun _ _ stored stored' matched => ?_
    rw [matched.int?]
    cases stored'.int? with
    | none => exact concurs_dump matched fun _ _ shown => concurs_fail (.stringLength shown) path
    | some n =>
        have text : ∀ {w : World}, Concurs q w .value
            (Run.read (n.toNat % Nat.pow 2 64) path >>= fun data =>
              Run.ofExcept path (TextField.decode encoding data))
            (Run.read (n.toNat % Nat.pow 2 64) path >>= fun data =>
              Run.ofExcept path (TextField.decode encoding data)) :=
          (concurs_read _ path).both fun _ _ _ => concurs_text encoding _ path
        exact concurs_ite (concurs_dump matched fun _ _ shown =>
          Concurs.both (concurs_fail (.stringLength shown) path) fun _ _ _ => text) text
  parseInline _ _ := concurs_refused _ _
  size _ path := concurs_unsized _ path

theorem concurs_rescue {α : Type} {A : Likeness α} {failure failure' : Failure}
    (matched : failure.Matches failure') (fault : Fault) (path : Path) :
    Concurs q w A
      (match failure.fault with
        | .shortage _ => (Run.fail fault path : Run α)
        | _ => throw failure)
      (match failure'.fault with
        | .shortage _ => Run.fail fault path
        | _ => throw failure') := by
  have faults := matched.fault
  generalize failure.fault = f at faults
  generalize failure'.fault = f' at faults
  cases faults with
  | refl =>
      split
      · exact concurs_refused fault path
      · exact concurs_throw matched
  | _ => exact concurs_throw matched

private theorem concurs_readTerminated (unit : Nat) (terminators : List (List UInt8))
    (path : Path) :
    ∀ {w : World} (more : Nat) (data : List UInt8),
      Concurs q w .same (readTerminated unit terminators path more data)
        (readTerminated unit terminators path more data)
  | _, 0, _ => concurs_refused _ _
  | _, more + 1, data => by
      refine (concurs_outcome (concurs_read unit path)).bind fun _ _ found found' matched => ?_
      cases matched with
      | error failures => exact concurs_rescue failures _ path
      | ok same =>
          cases same
          exact concurs_ite (concurs_pure rfl) (concurs_readTerminated unit terminators path more _)

theorem matches_terminatedText (terminators : List (List UInt8)) (encoding : Encoding) :
    (terminatedText terminators encoding).Matches q (terminatedText terminators encoding) where
  parse path := concurs_available.both fun _ _ n =>
    (concurs_readTerminated encoding.unit terminators path (n + 1) []).both fun _ _ _ =>
      concurs_text encoding _ path
  parseInline _ _ := concurs_refused _ _
  size _ path := concurs_unsized _ path

theorem matches_greedyText (encoding : Encoding) :
    (greedyText encoding).Matches q (greedyText encoding) where
  parse path := concurs_readAll.both fun _ _ _ => concurs_text encoding _ path
  parseInline _ _ := concurs_refused _ _
  size _ path := concurs_unsized _ path

end Codec

end BinaryFormat
