/-
Correlation: a tree that refers to a table which no query on the way from the root provides.
-/
import QueryTree.Table
import QueryTree.Walk

namespace QueryTree

/-- `scope` provides what the expression refers to. A column is found by its query source or by the
name of its table; expressions that refer to nothing are found anywhere. -/
def Query.provides (scope : Query) : Expr → Bool
  | .column table source _ _ => source.any (scope.serves ·) || scope.mentions table
  | .output query _ _ => scope.mentions query
  | .star table => scope.mentions table
  | _ => true

def Expr.isReference : Expr → Bool
  | .column _ _ _ _ | .output _ _ _ | .star _ => true
  | _ => false

/-- The enclosing queries, innermost first, and the first reference that none of them provides. -/
structure ScopeChain where
  scopes : List Query := []
  unresolved : Option Expr := none

/-- Looks for a reference that no enclosing query provides. -/
def outerReferenceSearch : Visitor ScopeChain where
  enter q c := { c with scopes := q :: c.scopes }
  leave _ c := { c with scopes := c.scopes.tail }
  see e c :=
    if e.isReference && !c.scopes.any (·.provides e) then { c with unresolved := some e } else c
  done c := c.unresolved.isSome

/-- Some reference of the tree is provided by no query that encloses it. -/
def Query.hasOuterReference (q : Query) : Bool := (q.walk outerReferenceSearch {}).unresolved.isSome

end QueryTree
