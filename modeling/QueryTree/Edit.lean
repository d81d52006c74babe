/-
Operations on a query under construction. LIMIT, OFFSET, DISTINCT and a new output apply to the rows
that the query yields so far. Where SQL would apply one of them ahead of something that is there
already, the query is pushed down first.
-/
import QueryTree.Query.Nesting
import QueryTree.Session

namespace QueryTree

/-! ## Drafts -/

/-- A query under construction and the session that it takes names from. -/
structure Draft where
  query : Query
  session : Session

/-- An operation on a draft. One that fails leaves the draft as far as it has got. -/
abbrev Edit (α : Type) := EStateM Error Draft α

namespace Edit

/-- Does something to the session alone. -/
def onSession {α : Type} (act : EStateM Error Session α) : Edit α := fun d =>
  match act d.session with
  | .ok a session => .ok a { d with session }
  | .error e session => .error e { d with session }

/-- Does something to the query alone. -/
def onQuery {α : Type} (act : EStateM Error Query α) : Edit α := fun d =>
  match act d.query with
  | .ok a query => .ok a { d with query }
  | .error e query => .error e { d with query }

def query : Edit Query := return (← get).query

def modifyQuery (f : Query → Query) : Edit Unit := modify fun d => { d with query := f d.query }

/-- Does something to the nested query that is the only table. -/
def onNested {α : Type} (act : Edit α) : Edit α := fun d =>
  match d.query.tables with
  | [.nested child] =>
    let around (inner : Draft) : Draft :=
      { inner with query := { d.query with tables := [.nested inner.query] } }
    match act { d with query := child } with
    | .ok a inner => .ok a (around inner)
    | .error e inner => .error e (around inner)
  | tables => .error (.notOneNested tables.length) d

/-! ## Operations that push down -/

/-- Pushes the query down under a fresh name. -/
def pushDown : Edit Unit := do
  let name ← onSession Session.createSubqueryName
  match (← query).pushedDown name with
  | .ok q => modifyQuery fun _ => q
  | .error e => throw e

/-- Sets LIMIT. A limit that is there already stays with what is pushed down. -/
def limitTo (limit : Option Expr) : Edit Unit := do
  if limit.isSome && (← query).limit.isSome then pushDown
  modifyQuery ({ · with limit })

/-- Sets OFFSET. A limit or offset that is there already stays with what is pushed down. -/
def startAfter (offset : Option Expr) : Edit Unit := do
  let q ← query
  if offset.isSome && (q.limit.isSome || q.offset.isSome) then pushDown
  modifyQuery ({ · with offset })

/-- Sets DISTINCT. A limit or offset that is there already stays with what is pushed down. -/
def distinctRows (distinct : Bool) : Edit Unit := do
  let q ← query
  if distinct && (q.limit.isSome || q.offset.isSome) then pushDown
  modifyQuery ({ · with distinct })

/-- Makes `e` the whole output. A limited or DISTINCT query is pushed down first. -/
def projectOnly (e : Expr) : Edit Nat := do
  let q ← query
  if q.limit.isSome || q.distinct then pushDown
  modifyQuery Query.projectNothing
  modifyGet fun d =>
    let (i, query) := d.query.project e true
    (i, { d with query })

end Edit

end QueryTree
