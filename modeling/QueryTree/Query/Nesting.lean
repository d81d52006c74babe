/-
Push-down: a query moves all it has into a nested query of a new name and becomes a wildcard over
it. What still refers to the old contents, the sort keys and the members, is lifted to refer to the
outputs of the nested query.
-/
import QueryTree.Query.Lift
import QueryTree.Query.Projection

namespace QueryTree.Query

/-- What `child` outputs for `e`: the slot that holds it, or `e` itself where the wildcard over the
table `wildcard` has it, else a new slot. -/
def showSlot (wildcard : Option String) (e : Expr) (child : Query) : Expr × Query :=
  match child.slotOf e with
  | some i => (child.projection.getD i e, child)
  | none =>
    if child.starred && wildcard.isSome && e.unnamed.owner == wildcard then (e.unnamed, child)
    else child.addSlot e

/-- The reference to what the nested query `name` outputs for `e`. The state is the nested query,
which may gain a slot. -/
def liftThrough (name : String) (wildcard : Option String) (e : Expr) :
    StateT Query (Except Error) Expr := do
  let shown ← modifyGet (showSlot wildcard e)
  shown.lift name

/-- The nested query of a push-down before it takes over more than projection and sort keys. -/
def firstChild (name : String) (q : Query) : Query :=
  let copied := q.projection.foldl (fun (child : Query) e => child.appendSlot e) { name := some name }
  { copied with orderBy := q.orderBy, starred := q.starred || q.projection.isEmpty }

/-- `q` pushed down into a nested query of the given name. -/
def pushedDown (name : String) (q : Query) : Except Error Query := do
  let lift := liftThrough name q.wildcardTable
  let lifting : StateT Query (Except Error) (List OrderKey × List (String × Expr)) := do
    let keys ← q.orderBy.mapM fun key => return { key with expr := ← lift key.expr }
    let members ← q.members.mapM fun (member, e) => return (member, ← lift e)
    return (keys, members)
  let ((keys, members), child) ← lifting.run (q.firstChild name)
  let child := { child with
    tables := q.tables
    predicate := q.predicate
    limit := q.limit
    offset := q.offset
    distinct := q.distinct
    wildcardChoice := q.wildcardChoice
    memo := q.memo
    orderBy := if q.limit.isNone && q.offset.isNone then [] else child.orderBy }
  return {
    tables := [.nested child]
    orderBy := keys
    name := q.name
    starred := true
    wildcardChoice := some name
    members }

end QueryTree.Query
