/-
References to what a nested query outputs, as the enclosing query writes them.
-/
import QueryTree.Sql

namespace QueryTree.Expr

/-- What a slot of the nested query `query` is to the enclosing one. Only a slot with a name can be
referred to. -/
def lift? (query : String) (e : Expr) : Option Expr :=
  e.outputName.map fun name => output query name e.type

def lift (query : String) (e : Expr) : Except Error Expr :=
  match e.lift? query with
  | some e => .ok e
  | none => .error (.unliftable query e.toSql)

end QueryTree.Expr
