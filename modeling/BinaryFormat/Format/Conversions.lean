import BinaryFormat.Format.Basic

/-!
# Ready-made conversions

Negation of integers, reversal of text, and scaling by a factor that the
innermost frame may give.
-/

namespace BinaryFormat

namespace Conversion

def negate (v : Value) : Except Fault Value :=
  let refused : Fault := .misshapen (.other ("cannot negate a " ++ v.typeName))
  match v.int? with
  | some n => if Value.fitsInt (-n) then .ok (.int (-n)) else .error refused
  | none => .error refused

/-- Integers with the opposite sign. -/
def negated : Conversion := ⟨negate, negate⟩

def reverseText : Value → Except Fault Value
  | .str text => .ok (.str (String.ofList text.toList.reverse))
  | _ => .error (.rejected (.other "not a string"))

/-- Text in reverse. -/
def reversed : Conversion := ⟨reverseText, reverseText⟩

end Conversion

namespace ScopedConversion

/-- The factor of the innermost frame, or ten. -/
def factor (scope : Scope) : Int := ((scope.innermost.get? "factor").bind Value.int?).getD 10

def scaleUp (scope : Scope) (path : Path) (v : Value) : Except Failure Value :=
  let refused : Failure := (Fault.misshapen (.other "not scalable")).atPath path
  match v.int? with
  | some n =>
    let product := n * factor scope
    if Value.fitsInt product then .ok (.int product) else .error refused
  | none => .error refused

def scaleDown (scope : Scope) (path : Path) (v : Value) : Except Failure Value :=
  let refused : Failure := (Fault.rejected (.other "not a multiple")).atPath path
  match v.int? with
  | some n =>
    let f := factor scope
    if f = 0 then .error refused
    else if n.tmod f = 0 ∧ Value.fitsInt (n.tdiv f) then .ok (.int (n.tdiv f))
    else .error refused
  | none => .error refused

/-- Integers stored divided by a factor. -/
def scaled : ScopedConversion := ⟨scaleUp, scaleDown⟩

end ScopedConversion

end BinaryFormat
