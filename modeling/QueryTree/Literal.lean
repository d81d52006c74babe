/-
Constant values and how SQL writes them.
-/
import QueryTree.Literal.Decimal

namespace QueryTree

inductive Literal
  | null
  | boolean (value : Bool)
  | integer (value : Int64)
  | double (value : Double)
  | text (value : String)
  deriving DecidableEq

namespace Literal

/-- Equality of values: floating-point values are compared as numbers. -/
def valueEq : Literal → Literal → Bool
  | double x, double y => x.numEq y
  | a, b => a == b

/-- A text in single quotes, each quote inside it written twice. -/
def quoted (s : String) : String :=
  String.ofList ('\x27' :: s.toList.flatMap (fun c => if c = '\x27' then [c, c] else [c]) ++ ['\x27'])

def toText : Literal → String
  | null => "NULL"
  | boolean b => if b then "TRUE" else "FALSE"
  | integer n => toString n.toInt
  | double x => x.toText
  | text s => quoted s

end Literal

end QueryTree
