/-!
# Paths

Where in a format a component stands: the outermost one is `this`, a named
member adds a dot and its name, an element adds its index in brackets.
-/

namespace BinaryFormat

inductive Path where
  | root (label : String)
  | member (outer : Path) (name : String)
  | element (outer : Path) (index : Nat)
  deriving DecidableEq, Repr, Inhabited

namespace Path

/-- The path of the outermost component. -/
def this : Path := root "this"

def text : Path → String
  | root label => label
  | member outer name => outer.text ++ "." ++ name
  | element outer index => outer.text ++ "[" ++ toString index ++ "]"

/-- The path of a member, which is that of its owner if the member has no name. -/
def memberIf (path : Path) : Option String → Path
  | some name => path.member name
  | none => path

/-- The path of an item of a sequence, by name if it has one. -/
def item (path : Path) (name : Option String) (index : Nat) : Path :=
  match name with
  | some name => path.member name
  | none => path.element index

/-- The path of the list that an element belongs to. -/
def ofElement : Path → Path
  | element outer _ => outer
  | path => path

/-- What follows the last dot of the text, if that names a field. -/
def fieldName? (path : Path) : Option String :=
  let last := (path.text.toList.reverse.takeWhile (· != '.')).reverse
  let name := String.ofList last
  if last.isEmpty || last.getLast? == some ']' || name == "this" then none else some name

end Path

end BinaryFormat
