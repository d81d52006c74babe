/-
WHERE and ORDER BY of a query, and the members of its result.
-/
import QueryTree.Assoc
import QueryTree.Equivalence

namespace QueryTree.Query

/-! ## WHERE -/

/-- Adds a condition with AND. -/
def restrict (e : Expr) (q : Query) : Query :=
  { q with predicate := some (Expr.conjoin q.predicate e) }

def withPredicate (e : Option Expr) (q : Query) : Query := { q with predicate := e }

/-! ## ORDER BY -/

/-- The keys with one more at the end, unless an equal one of the same direction stands among them.
It comes with the key that stands there afterwards. -/
def addKey (key : OrderKey) (keys : List OrderKey) : OrderKey × List OrderKey :=
  match keys.find? fun k => k.direction == key.direction && k.expr.equiv key.expr with
  | some k => (k, keys)
  | none => (key, keys ++ [key])

def orderAlso (key : OrderKey) (q : Query) : OrderKey × Query :=
  let (key, keys) := addKey key q.orderBy
  (key, { q with orderBy := keys })

/-- Puts keys ahead of the present ones, of which those that have become duplicates go. -/
def orderFirst (keys : List OrderKey) (q : Query) : Query :=
  { q with orderBy := q.orderBy.foldl (fun keys key => (addKey key keys).2) keys }

def unordered (q : Query) : Query := { q with orderBy := [] }

/-! ## Members -/

def setMember (member : String) (e : Expr) (q : Query) : Query :=
  { q with members := Assoc.put member e q.members }

def member? (member : String) (q : Query) : Option Expr := q.members.lookup member

/-! ## Whole queries -/

/-- The query returns the rows of its only table as they are. -/
def passesThrough (q : Query) : Bool :=
  !q.starred && !q.distinct && q.predicate.isNone && q.limit.isNone && q.offset.isNone
    && q.orderBy.isEmpty && q.projection.isEmpty && q.tables.length == 1

end QueryTree.Query
