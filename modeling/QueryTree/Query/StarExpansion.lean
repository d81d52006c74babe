/-
Expansion of a wildcard over a nested query into references to all that the nested query outputs.
-/
import QueryTree.Query.Lift
import QueryTree.Query.Projection

namespace QueryTree.Query

/-- What a nested query outputs: its first `count` slots (all of them without a count), then the
columns bound through its own wildcard. -/
def outputs (count : Option Nat) (child : Query) : List Expr :=
  (match count with
    | some n => child.projection.take n
    | none => child.projection) ++ if child.starred then child.memo.entries else []

/-- Replaces the wildcard over a nested query by references to its `outputs count`, followed by the
columns bound through the wildcard itself. Over anything else the wildcard stays. -/
def expandStarTo (count : Option Nat) : EStateM Error Query Unit := fun q =>
  match q.starred, q.tables with
  | true, [.nested child] =>
    match child.name with
    | none => .error .unnamedQuery q
    | some name =>
      match (child.outputs count).mapM (·.lift name) with
      | .error e => .error e q
      | .ok lifted =>
        let q := (lifted ++ q.memo.entries).foldl (fun q e => (q.project e false).2) q
        .ok () { q with starred := false }
  | _, _ => .ok () q

/-- Replaces the wildcard over a nested query by references to all that the nested query outputs. -/
def expandStar : EStateM Error Query Unit := expandStarTo none

end QueryTree.Query
