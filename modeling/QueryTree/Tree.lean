/-
SELECT trees: expressions, the tables of a FROM list, and query nodes. A query owns its tables and
expressions outright; nested queries sit in the FROM list of their owner or under `EXISTS`.
-/
import QueryTree.Literal
import QueryTree.DataType
import Std.Data.HashMap

namespace QueryTree

/-! ## Parts without subtrees -/

/-- One data source of the query that the tree is compiled from. -/
structure Source where
  id : UInt32
  deriving DecidableEq

def Source.toText (s : Source) : String := "#" ++ toString s.id.toNat

inductive BinaryOp
  | and | or
  | equal | notEqual | lessThan | lessThanOrEqual | greaterThan | greaterThanOrEqual
  | add | subtract | multiply | divide
  deriving DecidableEq

inductive Direction
  | asc | desc
  deriving DecidableEq

inductive JoinKind
  | inner | leftOuter | cross | crossLateral
  deriving DecidableEq

/-- Columns handed out so far, in order of first request. From some length on they are also indexed
by hash: each hash has the positions of the entries that have it. -/
structure StarMemo (α : Type) where
  entries : List α := []
  index : Std.HashMap UInt64 (List Nat) := ∅

/-! ## Trees -/

mutual

inductive Expr
  /-- A column of a base table that this scope lists under the name `table`. -/
  | column (table : String) (source : Option Source) (name : String) (type : DataType)
  /-- `inner AS name`. -/
  | named (name : String) (inner : Expr)
  /-- `table.*`. -/
  | star (table : String)
  /-- A column that the nested query `query` outputs. -/
  | output (query : String) (name : String) (type : DataType)
  | constant (value : Literal) (type : DataType)
  /-- A placeholder for a value given at execution. -/
  | parameter (name : String) (type : DataType)
  /-- The position of the row in the order of the keys, counted from one. -/
  | rowNumber (keys : List OrderKey)
  | cast (operand : Expr) (type : DataType)
  | binary (op : BinaryOp) (left right : Expr)
  | not (operand : Expr)
  | call (function : String) (args : List Expr) (type : DataType)
  | exist (query : Query)

structure OrderKey where
  expr : Expr
  direction : Direction

/-- An entry of a FROM list. A join stands after the tables that it is joined to and wraps the
table that it brings in. -/
inductive Table
  | base (table : String) (schema : Option String) (name : String) (source : Option Source)
  | join (kind : JoinKind) (target : Table) (condition : Option Expr)
  | nested (query : Query)

structure Query where
  tables : List Table := []
  projection : List Expr := []
  predicate : Option Expr := none
  orderBy : List OrderKey := []
  limit : Option Expr := none
  offset : Option Expr := none
  distinct : Bool := false
  /-- The name under which the enclosing query lists this one. -/
  name : Option String := none
  /-- The wildcard is part of the output, ahead of the projection. -/
  starred : Bool := false
  /-- The table chosen for the wildcard. -/
  wildcardChoice : Option String := none
  /-- The columns bound through the wildcard. -/
  memo : StarMemo Expr := {}
  /-- The expression that each member of the result is read from. -/
  members : List (String × Expr) := []

end

instance : Inhabited Expr := ⟨.star ""⟩

instance : Inhabited Query := ⟨{}⟩

end QueryTree
