/-
Operations on single expressions: static type, output name, names on top, operands.
-/
import QueryTree.Tree

namespace QueryTree

/-! ## Operators -/

namespace BinaryOp

/-- Arithmetic yields a number, any other operator a truth value. -/
def isBoolean : BinaryOp → Bool
  | add | subtract | multiply | divide => false
  | and | or | equal | notEqual | lessThan | lessThanOrEqual | greaterThan
  | greaterThanOrEqual => true

def sql : BinaryOp → String
  | and => "AND"
  | or => "OR"
  | equal => "="
  | notEqual => "<>"
  | lessThan => "<"
  | lessThanOrEqual => "<="
  | greaterThan => ">"
  | greaterThanOrEqual => ">="
  | add => "+"
  | subtract => "-"
  | multiply => "*"
  | divide => "/"

end BinaryOp

namespace Expr

/-! ## Names -/

/-- The expression without the names on top of it. -/
def unnamed : Expr → Expr
  | named _ inner => inner.unnamed
  | e => e

/-- `e AS name`, in place of any name that `e` has. -/
def withName (name : String) (e : Expr) : Expr := named name e.unnamed

/-- The name under which an expression is output, if it has one. -/
def outputName : Expr → Option String
  | column _ _ name _ | named name _ | output _ name _ => some name
  | _ => none

def isNamed : Expr → Bool
  | named _ _ => true
  | _ => false

def isStar : Expr → Bool
  | star _ => true
  | _ => false

/-! ## Shapes -/

/-- A column of a base table or of a nested query. -/
def isColumn : Expr → Bool
  | column _ _ _ _ | output _ _ _ => true
  | _ => false

/-- The name of the table or nested query that a column belongs to. -/
def owner : Expr → Option String
  | column table _ _ _ => some table
  | output query _ _ => some query
  | _ => none

def numbersRows (e : Expr) : Bool :=
  match e.unnamed with
  | rowNumber _ => true
  | _ => false

def integer? : Expr → Option Int64
  | constant (.integer n) _ => some n
  | _ => none

def int (n : Int64) : Expr := constant (.integer n) .int32

/-! ## Static type -/

/-- The type of the value. Arithmetic has the type of its left operand, and is nullable if either
operand is. -/
def type : Expr → DataType
  | column _ _ _ t | output _ _ t | constant _ t | parameter _ t | cast _ t | call _ _ t => t
  | named _ inner => inner.type
  | star _ => .row
  | rowNumber _ => .int64
  | binary op left right =>
    if op.isBoolean then .boolean
    else left.type.setNullable (left.type.nullable || right.type.nullable)
  | not _ | exist _ => .boolean

/-- Drops numeric casts on top that change at most nullability. -/
def stripCasts : Expr → Expr
  | e@(cast operand t) =>
    if t.isNumber && t.kind == operand.type.kind then operand.stripCasts else e
  | e => e

/-! ## Operands -/

/-- The direct operands in order of evaluation. A query under `EXISTS` is not one. -/
def operands : Expr → List Expr
  | named _ inner => [inner]
  | rowNumber keys => keys.map (·.expr)
  | cast operand _ => [operand]
  | binary _ left right => [left, right]
  | not operand => [operand]
  | call _ args _ => args
  | column _ _ _ _ | star _ | output _ _ _ | constant _ _ | parameter _ _ | exist _ => []

/-- The expression with its `i`-th operand replaced, if it has so many. -/
def setOperand? (e : Expr) (i : Nat) (new : Expr) : Option Expr :=
  if i < e.operands.length then
    some <| match e with
      | named name _ => named name new
      | rowNumber keys => rowNumber (keys.modify i ({ · with expr := new }))
      | cast _ t => cast new t
      | binary op left right => if i = 0 then binary op new right else binary op left new
      | not _ => not new
      | call function args t => call function (args.set i new) t
      | other => other
  else none

/-! ## Conjunction -/

/-- `next` added with AND to a condition that may be absent. -/
def conjoin (condition : Option Expr) (next : Expr) : Expr :=
  match condition with
  | some e => binary .and e next
  | none => next

/-- All conditions joined with AND from the left. -/
def conjunction (conditions : List Expr) : Option Expr :=
  conditions.foldl (fun joined e => some (conjoin joined e)) none

end Expr

end QueryTree
