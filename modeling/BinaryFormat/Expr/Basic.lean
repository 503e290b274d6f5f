import BinaryFormat.Fault
import BinaryFormat.Value.Basic

/-!
# Expressions

A format refers to what was parsed or built before through expressions over
the stack of frames: small trees of paths, operators and named functions that
are evaluated when a component needs their value.
-/

namespace BinaryFormat

/-- What an expression can see. -/
structure Scope where
  /-- The frames, innermost first; the last one holds the caller's parameters. -/
  frames : List (Record Value)
  /-- The element under inspection, inside predicates and conversions. -/
  object : Option Value := none
  /-- The elements so far, inside predicates. -/
  list : Option (List Value) := none

namespace Scope

def innermost (scope : Scope) : Record Value := scope.frames.headD []

def parameters (scope : Scope) : Record Value := scope.frames.getLastD []

end Scope

inductive BinaryOp where
  | add | sub | mul | div | rem
  | bitAnd | bitOr | bitXor | shl | shr
  | eq | ne | lt | le | gt | ge
  | and | or
  deriving DecidableEq, Repr

def BinaryOp.symbol : BinaryOp → String
  | add => "+"
  | sub => "-"
  | mul => "*"
  | div => "//"
  | rem => "%"
  | bitAnd => "&"
  | bitOr => "|"
  | bitXor => "^"
  | shl => "<<"
  | shr => ">>"
  | eq => "=="
  | ne => "!="
  | lt => "<"
  | le => "<="
  | gt => ">"
  | ge => ">="
  | and => "and"
  | or => "or"

inductive UnaryOp where
  | neg
  | not
  deriving DecidableEq, Repr

/-- The functions that expressions can call by name. -/
inductive Helper where
  | len
  | sum
  | min
  | max
  | abs
  deriving DecidableEq, Repr

def Helper.name : Helper → String
  | len => "len_"
  | sum => "sum_"
  | min => "min_"
  | max => "max_"
  | abs => "abs_"

inductive Expr where
  | const (value : Value)
  /-- The innermost frame. -/
  | this
  /-- The element under inspection. -/
  | object
  /-- The elements so far. -/
  | list
  | attr (base : Expr) (name : String)
  | index (base key : Expr)
  | binary (op : BinaryOp) (left right : Expr)
  | unary (op : UnaryOp) (operand : Expr)
  | call (helper : Helper) (args : List Expr)
  /-- A function that the caller supplies. -/
  | host (run : Scope → Except Failure Value)

namespace Expr

instance : Inhabited Expr := ⟨this⟩

def const? : Expr → Option Value
  | const value => some value
  | _ => none

/-- The parts of a text between its dots. -/
def splitDots : List Char → List (List Char)
  | [] => [[]]
  | c :: rest =>
    if c = '.' then [] :: splitDots rest
    else
      match splitDots rest with
      | first :: others => (c :: first) :: others
      | [] => [[c]]

/-- Drops a leading `this`. -/
def dropThis : List Char → List Char
  | 't' :: 'h' :: 'i' :: 's' :: rest => rest
  | path => path

/-- The expression for a dotted path from the innermost frame. -/
def ofPath (path : String) : Expr :=
  let segments := (splitDots (dropThis path.toList)).filter fun segment => !segment.isEmpty
  segments.foldl (fun base segment => attr base (String.ofList segment)) this

end Expr

end BinaryFormat
