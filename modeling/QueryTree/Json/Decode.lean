/-
Trees from their JSON form. Nothing is checked beyond the form itself, so names may be missing or
nested where an operation would not leave them so.
-/
import QueryTree.Assoc
import QueryTree.Json.Encode

namespace QueryTree

/-! ## Leaves -/

def Kind.ofJson? : Json → Option Kind := Json.choice? Kind.all Kind.jsonName

def BinaryOp.ofJson? : Json → Option BinaryOp := Json.choice? BinaryOp.all BinaryOp.jsonName

def Direction.ofJson? : Json → Option Direction := Json.choice? Direction.all Direction.jsonName

def JoinKind.ofJson? : Json → Option JoinKind := Json.choice? JoinKind.all JoinKind.jsonName

def DataType.ofJson? (j : Json) : Option DataType := do
  let field ← j.record? ["kind", "nullable"]
  return ⟨← Kind.ofJson? (field "kind"), ← (field "nullable").bool?⟩

def Source.ofJson? (j : Json) : Option Source :=
  (j.int? 0 (UInt32.size - 1)).map fun n => ⟨UInt32.ofNat n.toNat⟩

def Literal.ofJson? (j : Json) : Option Literal :=
  match j.variant? with
  | some ("Null", none) | some ("Null", some .null) => some .null
  | some ("Boolean", some content) => content.bool?.map .boolean
  | some ("Integer", some content) =>
    (content.int? Int64.minValue.toInt Int64.maxValue.toInt).map (.integer <| .ofInt ·)
  | some ("Float", some content) => content.double?.map .double
  | some ("String", some content) => content.text?.map .text
  | _ => none

/-! ## Trees -/

mutual

/-- Reads an expression nested less than `depth` deep. -/
def readExpr (depth : Nat) (j : Json) : Option Expr :=
  match depth, j.variant? with
  | depth + 1, some (tag, some content) =>
    match tag with
    | "Column" => do
      let field ← content.record? ["table_alias", "query_source", "name", "ty"]
      return .column (← (field "table_alias").text?)
        (← (field "query_source").optional? Source.ofJson?) (← (field "name").text?)
        (← DataType.ofJson? (field "ty"))
    | "Alias" => do
      let field ← content.record? ["alias", "inner"]
      return .named (← (field "alias").text?) (← readExpr depth (field "inner"))
    | "Star" => do
      let field ← content.record? ["table_alias"]
      return .star (← (field "table_alias").text?)
    | "SubqueryColumn" => do
      let field ← content.record? ["subquery_alias", "name", "ty"]
      return .output (← (field "subquery_alias").text?) (← (field "name").text?)
        (← DataType.ofJson? (field "ty"))
    | "Constant" => do
      let field ← content.record? ["value", "ty"]
      return .constant (← Literal.ofJson? (field "value")) (← DataType.ofJson? (field "ty"))
    | "Parameter" => do
      let field ← content.record? ["name", "ty"]
      return .parameter (← (field "name").text?) (← DataType.ofJson? (field "ty"))
    | "RowNumber" => do
      let field ← content.record? ["order_keys"]
      return .rowNumber (← (← (field "order_keys").list?).mapM (readKey depth))
    | "Cast" => do
      let field ← content.record? ["operand", "ty"]
      return .cast (← readExpr depth (field "operand")) (← DataType.ofJson? (field "ty"))
    | "Binary" => do
      let field ← content.record? ["operator", "left", "right"]
      return .binary (← BinaryOp.ofJson? (field "operator")) (← readExpr depth (field "left"))
        (← readExpr depth (field "right"))
    | "Not" => (readExpr depth content).map .not
    | "Function" => do
      let field ← content.record? ["name", "args", "ty"]
      return .call (← (field "name").text?) (← (← (field "args").list?).mapM (readExpr depth))
        (← DataType.ofJson? (field "ty"))
    | "Exists" => do
      let field ← content.record? ["query"]
      return .exist (← readQuery depth (field "query"))
    | _ => none
  | _, _ => none

def readKey (depth : Nat) (j : Json) : Option OrderKey :=
  match depth with
  | 0 => none
  | depth + 1 => do
    let field ← j.record? ["expression", "order"]
    return ⟨← readExpr depth (field "expression"), ← Direction.ofJson? (field "order")⟩

def readTable (depth : Nat) (j : Json) : Option Table :=
  match depth, j.variant? with
  | depth + 1, some (tag, some content) =>
    match tag with
    | "Base" => do
      let field ← content.record? ["name", "schema", "alias", "query_source"]
      return .base (← (field "name").text?) (← (field "schema").optional? Json.text?)
        (← (field "alias").text?) (← (field "query_source").optional? Source.ofJson?)
    | "Join" => do
      let field ← content.record? ["kind", "target", "predicate"]
      return .join (← JoinKind.ofJson? (field "kind")) (← readTable depth (field "target"))
        (← (field "predicate").optional? (readExpr depth))
    | "Nested" => (readQuery depth content).map .nested
    | _ => none
  | _, _ => none

def readQuery (depth : Nat) (j : Json) : Option Query :=
  match depth with
  | 0 => none
  | depth + 1 => do
    let field ← j.record? ["tables", "projection", "predicate", "order_by", "limit", "offset",
      "is_distinct", "alias", "is_star_projected", "star_table", "star_bindings",
      "member_projections"]
    let memo ← (field "star_bindings").record? ["entries"]
    let members ← (field "member_projections").object?
    return {
      tables := ← (← (field "tables").list?).mapM (readTable depth)
      projection := ← (← (field "projection").list?).mapM (readExpr depth)
      predicate := ← (field "predicate").optional? (readExpr depth)
      orderBy := ← (← (field "order_by").list?).mapM (readKey depth)
      limit := ← (field "limit").optional? (readExpr depth)
      offset := ← (field "offset").optional? (readExpr depth)
      distinct := ← (field "is_distinct").bool?
      name := ← (field "alias").optional? Json.text?
      starred := ← (field "is_star_projected").bool?
      wildcardChoice := ← (field "star_table").optional? Json.text?
      memo := { entries := ← (← (memo "entries").list?).mapM (readExpr depth) }
      members := ← members.mapM fun (member, e) => return (member, ← readExpr depth e) }

end

def Expr.ofJson? (j : Json) : Option Expr := readExpr (j.depth + 1) j

def OrderKey.ofJson? (j : Json) : Option OrderKey := readKey (j.depth + 1) j

def Table.ofJson? (j : Json) : Option Table := readTable (j.depth + 1) j

def Query.ofJson? (j : Json) : Option Query := readQuery (j.depth + 1) j

/-! ## Settings -/

/-- Settings. Fields that are absent, or missing at the end of a list, have their defaults;
null is not a value of any. -/
def Settings.ofJson? (j : Json) : Option Settings := do
  let names := ["subquery_alias_prefix", "row_number_column", "star_index_threshold"]
  let fields ← match j with
    | .object fields => some fields
    | .list items => if items.length ≤ names.length then some (names.zip items) else none
    | _ => none
  let read {α : Type} (name : String) (read : Json → Option α) (absent : α) : Option α :=
    match fields.lookup name with
    | some j => read j
    | none => some absent
  let absent : Settings := {}
  return {
    subqueryStem := ← read "subquery_alias_prefix" Json.text? absent.subqueryStem
    rowNumberName := ← read "row_number_column" Json.text? absent.rowNumberName
    indexThreshold := ← read "star_index_threshold"
      (fun j => (j.int? 0 (UInt64.size - 1)).map Int.toNat) absent.indexThreshold }

end QueryTree
