/-
The JSON form of a tree. A floating-point value that is not finite has none and becomes null, and
the index of a memo is left out.
-/
import QueryTree.Settings
import QueryTree.Json
import QueryTree.Tree

namespace QueryTree

/-! ## Choices -/

def Kind.all : List Kind :=
  [.boolean, .int16, .int32, .int64, .decimal, .double, .text, .timestamp, .uuid, .binary, .row]

def Kind.jsonName : Kind → String
  | boolean => "Boolean"
  | int16 => "Int16"
  | int32 => "Int32"
  | int64 => "Int64"
  | decimal => "Decimal"
  | double => "Double"
  | text => "Text"
  | timestamp => "Timestamp"
  | uuid => "Uuid"
  | binary => "Binary"
  | row => "Row"

def BinaryOp.all : List BinaryOp :=
  [.and, .or, .equal, .notEqual, .lessThan, .lessThanOrEqual, .greaterThan, .greaterThanOrEqual,
    .add, .subtract, .multiply, .divide]

def BinaryOp.jsonName : BinaryOp → String
  | and => "And"
  | or => "Or"
  | equal => "Equal"
  | notEqual => "NotEqual"
  | lessThan => "LessThan"
  | lessThanOrEqual => "LessThanOrEqual"
  | greaterThan => "GreaterThan"
  | greaterThanOrEqual => "GreaterThanOrEqual"
  | add => "Add"
  | subtract => "Subtract"
  | multiply => "Multiply"
  | divide => "Divide"

def Direction.all : List Direction := [.asc, .desc]

def Direction.jsonName : Direction → String
  | asc => "Asc"
  | desc => "Desc"

def JoinKind.all : List JoinKind := [.inner, .leftOuter, .cross, .crossLateral]

def JoinKind.jsonName : JoinKind → String
  | inner => "Inner"
  | leftOuter => "LeftOuter"
  | cross => "Cross"
  | crossLateral => "CrossLateral"

/-! ## Leaves -/

def Json.ofOption {α : Type} (write : α → Json) : Option α → Json
  | none => .null
  | some a => write a

def DataType.toJson (t : DataType) : Json :=
  .object [("kind", .text t.kind.jsonName), ("nullable", .bool t.nullable)]

def Source.toJson (s : Source) : Json := .int s.id.toNat

def Literal.toJson : Literal → Json
  | null => .text "Null"
  | boolean b => .object [("Boolean", .bool b)]
  | integer n => .object [("Integer", .int n.toInt)]
  | double x => .object [("Float", if x.isFinite then .float x else .null)]
  | text s => .object [("String", .text s)]

def Settings.toJson (c : Settings) : Json :=
  .object [("subquery_alias_prefix", .text c.subqueryStem),
    ("row_number_column", .text c.rowNumberName),
    ("star_index_threshold", .int c.indexThreshold)]

/-! ## Trees -/

mutual

def Expr.toJson : Expr → Json
  | .column table source name type => .object [("Column", .object
      [("table_alias", .text table), ("query_source", .ofOption Source.toJson source),
        ("name", .text name), ("ty", type.toJson)])]
  | .named name inner => .object [("Alias", .object
      [("alias", .text name), ("inner", inner.toJson)])]
  | .star table => .object [("Star", .object [("table_alias", .text table)])]
  | .output query name type => .object [("SubqueryColumn", .object
      [("subquery_alias", .text query), ("name", .text name), ("ty", type.toJson)])]
  | .constant value type => .object [("Constant", .object
      [("value", value.toJson), ("ty", type.toJson)])]
  | .parameter name type => .object [("Parameter", .object
      [("name", .text name), ("ty", type.toJson)])]
  | .rowNumber keys => .object [("RowNumber", .object [("order_keys", .list (keysJson keys))])]
  | .cast operand type => .object [("Cast", .object
      [("operand", operand.toJson), ("ty", type.toJson)])]
  | .binary op left right => .object [("Binary", .object
      [("operator", .text op.jsonName), ("left", left.toJson), ("right", right.toJson)])]
  | .not operand => .object [("Not", operand.toJson)]
  | .call function args type => .object [("Function", .object
      [("name", .text function), ("args", .list (exprsJson args)), ("ty", type.toJson)])]
  | .exist query => .object [("Exists", .object [("query", query.toJson)])]

def OrderKey.toJson : OrderKey → Json
  | ⟨e, direction⟩ =>
    .object [("expression", e.toJson), ("order", .text direction.jsonName)]

def Table.toJson : Table → Json
  | .base table schema name source => .object [("Base", .object
      [("name", .text table), ("schema", .ofOption .text schema), ("alias", .text name),
        ("query_source", .ofOption Source.toJson source)])]
  | .join kind target condition => .object [("Join", .object
      [("kind", .text kind.jsonName), ("target", target.toJson),
        ("predicate", optionJson condition)])]
  | .nested query => .object [("Nested", query.toJson)]

def Query.toJson : Query → Json
  | ⟨tables, projection, predicate, orderBy, limit, offset, distinct, name, starred, wildcardChoice,
      ⟨entries, _⟩, members⟩ =>
    .object [("tables", .list (tablesJson tables)), ("projection", .list (exprsJson projection)),
      ("predicate", optionJson predicate), ("order_by", .list (keysJson orderBy)),
      ("limit", optionJson limit), ("offset", optionJson offset),
      ("is_distinct", .bool distinct), ("alias", .ofOption .text name),
      ("is_star_projected", .bool starred), ("star_table", .ofOption .text wildcardChoice),
      ("star_bindings", .object [("entries", .list (exprsJson entries))]),
      ("member_projections", .object (membersJson members))]

def exprsJson : List Expr → List Json
  | [] => []
  | e :: es => e.toJson :: exprsJson es

def optionJson : Option Expr → Json
  | none => .null
  | some e => e.toJson

def keysJson : List OrderKey → List Json
  | [] => []
  | k :: ks => k.toJson :: keysJson ks

def tablesJson : List Table → List Json
  | [] => []
  | t :: ts => t.toJson :: tablesJson ts

def membersJson : List (String × Expr) → List (String × Json)
  | [] => []
  | (member, e) :: rest => (member, e.toJson) :: membersJson rest

end

@[simp] theorem exprsJson_eq_map (es : List Expr) : exprsJson es = es.map Expr.toJson := by
  induction es <;> simp [exprsJson, *]

@[simp] theorem optionJson_eq_ofOption (e : Option Expr) :
    optionJson e = Json.ofOption Expr.toJson e := by
  cases e <;> rfl

@[simp] theorem keysJson_eq_map (keys : List OrderKey) : keysJson keys = keys.map OrderKey.toJson := by
  induction keys <;> simp [keysJson, *]

@[simp] theorem tablesJson_eq_map (ts : List Table) : tablesJson ts = ts.map Table.toJson := by
  induction ts <;> simp [tablesJson, *]

@[simp] theorem membersJson_eq_map (members : List (String × Expr)) :
    membersJson members = members.map fun (member, e) => (member, e.toJson) := by
  induction members <;> simp [membersJson, *]

end QueryTree
