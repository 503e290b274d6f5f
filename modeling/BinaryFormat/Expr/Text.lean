import BinaryFormat.Expr.Basic
import BinaryFormat.Value.Dump

/-!
# The text of an expression

Every operation stands in parentheses, so the text shows the tree.
-/

namespace BinaryFormat

namespace Expr

mutual

def text : Expr → String
  | const (.int n) => toString n
  | const (.str s) => Text.quote s
  | const value => value.dumpPlain
  | this => "this"
  | object => "obj_"
  | list => "list_"
  | attr base name => text base ++ "." ++ name
  | index base key => text base ++ "[" ++ text key ++ "]"
  | binary op left right => "(" ++ text left ++ " " ++ op.symbol ++ " " ++ text right ++ ")"
  | unary .neg operand => "-" ++ text operand
  | unary .not operand => "not " ++ text operand
  | call helper args => helper.name ++ "(" ++ ", ".intercalate (texts args) ++ ")"
  | host _ => "<fn>"

def texts : List Expr → List String
  | [] => []
  | e :: rest => text e :: texts rest

end

end Expr

end BinaryFormat
