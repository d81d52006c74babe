/-
Changes to all queries of a tree from the bottom up: a query is changed after those in its tables
(the target of a join ahead of the condition), projection, WHERE, ORDER BY, LIMIT and OFFSET.
Wildcard memos and members stay as they are.
-/
import QueryTree.Tree

namespace QueryTree

variable {m : Type → Type} [Monad m]

mutual

/-- Applies `f` to the queries under `EXISTS` in an expression. -/
def Expr.mapQueriesM (f : Query → m Query) : Expr → m Expr
  | .named name inner => return .named name (← inner.mapQueriesM f)
  | .rowNumber keys => return .rowNumber (← keysMapQueriesM f keys)
  | .cast operand type => return .cast (← operand.mapQueriesM f) type
  | .binary op left right => return .binary op (← left.mapQueriesM f) (← right.mapQueriesM f)
  | .not operand => return .not (← operand.mapQueriesM f)
  | .call function args type => return .call function (← exprsMapQueriesM f args) type
  | .exist query => return .exist (← query.mapQueriesM f)
  | e@(.column _ _ _ _) | e@(.star _) | e@(.output _ _ _) | e@(.constant _ _)
  | e@(.parameter _ _) => return e

/-- Applies `f` to the nested query of a table and to those in its join condition. -/
def Table.mapQueriesM (f : Query → m Query) : Table → m Table
  | t@(.base _ _ _ _) => return t
  | .join kind target condition =>
    return .join kind (← target.mapQueriesM f) (← optionMapQueriesM f condition)
  | .nested query => return .nested (← query.mapQueriesM f)

/-- Applies `f` to all queries of a tree, last of all to the root. -/
def Query.mapQueriesM (f : Query → m Query) : Query → m Query
  | q@{ tables, projection, predicate, orderBy, limit, offset, .. } => do
    f { q with
      tables := ← tablesMapQueriesM f tables
      projection := ← exprsMapQueriesM f projection
      predicate := ← optionMapQueriesM f predicate
      orderBy := ← keysMapQueriesM f orderBy
      limit := ← optionMapQueriesM f limit
      offset := ← optionMapQueriesM f offset }

def exprsMapQueriesM (f : Query → m Query) : List Expr → m (List Expr)
  | [] => return []
  | e :: es => return (← e.mapQueriesM f) :: (← exprsMapQueriesM f es)

def optionMapQueriesM (f : Query → m Query) : Option Expr → m (Option Expr)
  | none => return none
  | some e => return some (← e.mapQueriesM f)

def keysMapQueriesM (f : Query → m Query) : List OrderKey → m (List OrderKey)
  | [] => return []
  | ⟨e, direction⟩ :: keys =>
    return ⟨← e.mapQueriesM f, direction⟩ :: (← keysMapQueriesM f keys)

def tablesMapQueriesM (f : Query → m Query) : List Table → m (List Table)
  | [] => return []
  | t :: ts => return (← t.mapQueriesM f) :: (← tablesMapQueriesM f ts)

end

@[simp] theorem exprsMapQueriesM_eq_mapM [LawfulMonad m] (f : Query → m Query) (es : List Expr) :
    exprsMapQueriesM f es = es.mapM (Expr.mapQueriesM f) := by
  induction es <;> simp [exprsMapQueriesM, *]

@[simp] theorem keysMapQueriesM_eq_mapM [LawfulMonad m] (f : Query → m Query)
    (keys : List OrderKey) : keysMapQueriesM f keys =
      keys.mapM fun k => return { k with expr := ← k.expr.mapQueriesM f } := by
  induction keys with
  | nil => rfl
  | cons k keys ih => cases k; simp [keysMapQueriesM, ih]

@[simp] theorem tablesMapQueriesM_eq_mapM [LawfulMonad m] (f : Query → m Query)
    (ts : List Table) : tablesMapQueriesM f ts = ts.mapM (Table.mapQueriesM f) := by
  induction ts <;> simp [tablesMapQueriesM, *]

end QueryTree
