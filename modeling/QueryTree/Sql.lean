/-
The SQL text of a tree. It is for reading and for messages: identifiers are not quoted.
-/
import QueryTree.Expr
import QueryTree.Table

namespace QueryTree

/-- Texts with a comma between any two. -/
def commaSeparated (texts : List String) : String := ", ".intercalate texts

/-- A clause under its keyword, or nothing where there is no text. -/
def clause (keyword : String) : Option String → String
  | some text => " " ++ keyword ++ " " ++ text
  | none => ""

def Direction.sql : Direction → String
  | .asc => "ASC"
  | .desc => "DESC"

mutual

def Expr.toSql : Expr → String
  | .column table _ name _ => table ++ "." ++ name
  | .named name inner => inner.toSql ++ " AS " ++ name
  | .star table => table ++ ".*"
  | .output query name _ => query ++ "." ++ name
  | .constant value _ => value.toText
  | .parameter name _ => "@" ++ name
  | .rowNumber keys => "ROW_NUMBER() OVER(ORDER BY " ++ commaSeparated (keysSql keys) ++ ")"
  | .cast operand type => "CAST(" ++ operand.toSql ++ " AS " ++ type.toText ++ ")"
  | .binary op left right => "(" ++ left.toSql ++ " " ++ op.sql ++ " " ++ right.toSql ++ ")"
  | .not operand => "NOT (" ++ operand.toSql ++ ")"
  | .call function args _ => function ++ "(" ++ commaSeparated (exprsSql args) ++ ")"
  | .exist query => "EXISTS (" ++ query.toSql ++ ")"

/-- A key with a name is addressed by that name. -/
def OrderKey.toSql : OrderKey → String
  | ⟨.named name _, direction⟩ => name ++ " " ++ direction.sql
  | ⟨e, direction⟩ => e.toSql ++ " " ++ direction.sql

def Table.toSql : Table → String
  | .base table schema name _ =>
    (match schema with
      | some schema => schema ++ "." ++ table
      | none => table) ++ " AS " ++ name
  | .join kind target condition =>
    kind.sql ++ " " ++ target.toSql ++ clause "ON" (optionSql condition)
  | .nested query => "(" ++ query.toSql ++ ") AS " ++ query.name.getD "?"

/-- An empty output is the wildcard. -/
def Query.toSql : Query → String
  | q@{ tables, projection, predicate, orderBy, limit, offset, .. } =>
    let wildcard := match q.wildcardTable with
      | some table => table ++ ".*"
      | none => "*"
    let columns := (if q.starred then [wildcard] else []) ++ exprsSql projection
    "SELECT " ++ (if q.distinct then "DISTINCT " else "")
      ++ commaSeparated (if columns.isEmpty then ["*"] else columns)
      ++ fromSql tables
      ++ clause "WHERE" (optionSql predicate)
      ++ clause "ORDER BY" (if orderBy.isEmpty then none else some (commaSeparated (keysSql orderBy)))
      ++ clause "LIMIT" (optionSql limit)
      ++ clause "OFFSET" (optionSql offset)

def exprsSql : List Expr → List String
  | [] => []
  | e :: es => e.toSql :: exprsSql es

def optionSql : Option Expr → Option String
  | none => none
  | some e => some e.toSql

def keysSql : List OrderKey → List String
  | [] => []
  | k :: ks => k.toSql :: keysSql ks

def fromSql : List Table → String
  | [] => ""
  | t :: ts => " FROM " ++ t.toSql ++ furtherSql ts

/-- The tables after the first: joins begin with their keyword, others follow a comma. -/
def furtherSql : List Table → String
  | [] => ""
  | t :: ts => (if t.isJoin then " " else ", ") ++ t.toSql ++ furtherSql ts

end

@[simp] theorem exprsSql_eq_map (es : List Expr) : exprsSql es = es.map Expr.toSql := by
  induction es <;> simp [exprsSql, *]

@[simp] theorem optionSql_eq_map (e : Option Expr) : optionSql e = e.map Expr.toSql := by
  cases e <;> rfl

@[simp] theorem keysSql_eq_map (keys : List OrderKey) : keysSql keys = keys.map OrderKey.toSql := by
  induction keys <;> simp [keysSql, *]

end QueryTree
