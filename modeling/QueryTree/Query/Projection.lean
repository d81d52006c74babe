/-
The projection of a query. A value has one slot only, however often it is added. In a query with a
name every slot but a wildcard has a name too, different from those of the other slots in more than
case.
-/
import QueryTree.Name
import QueryTree.Equivalence

namespace QueryTree

/-- What the names of nameless slots are made from. -/
def slotStem : String := "c"

namespace Query

/-! ## Slots -/

/-- The first slot that holds the value of `e`. -/
def slotOf (e : Expr) (q : Query) : Option Nat := q.projection.findIdx? (·.equiv e)

def projectNothing (q : Query) : Query := { q with projection := [] }

/-! ## Names of slots -/

def slotNames (q : Query) : List String := q.projection.filterMap Expr.outputName

/-- The first name for `stem` that no slot has. -/
def freeSlotName (stem : String) (q : Query) : String :=
  (Name.firstFree Name.clash q.slotNames stem 0).1

/-- `e` under a name that no slot has. A wildcard stays as it is. -/
def distinctlyNamed (e : Expr) (q : Query) : Expr :=
  if e.isStar then e
  else match e.outputName with
    | none => e.withName (q.freeSlotName slotStem)
    | some name =>
      let free := q.freeSlotName name
      if free = name then e else e.withName free

/-- `e` as a new slot would hold it. -/
def slotFor (e : Expr) (q : Query) : Expr := if q.name.isSome then q.distinctlyNamed e else e

/-- Appends a slot for `e`, though another may hold its value. -/
def appendSlot (e : Expr) (q : Query) : Query :=
  { q with projection := q.projection ++ [q.slotFor e] }

/-! ## Adding values -/

/-- The first key that sorts by the value of `e`, where `e` is computed: such a key has to be
addressed by the name of the slot. -/
def keyToName (e : Expr) (q : Query) : Option Nat :=
  if e.unnamed.isColumn then none else q.orderBy.findIdx? (·.expr.equiv e)

/-- Appends a slot for `e`, which has none, and lets a computed key refer to it. -/
def appendValue (e : Expr) (q : Query) : Query :=
  let key := q.keyToName e
  let e := if key.isSome && !e.isNamed then e.withName (q.freeSlotName slotStem) else e
  let e := q.slotFor e
  { q with
    projection := q.projection ++ [e]
    orderBy := match key with
      | some i => q.orderBy.modify i ({ · with expr := e })
      | none => q.orderBy }

/-- The slot for `e`, appended if there is none, and the query with it. With `explicit` the wildcard
is turned off, so that the projection alone is the output. -/
def project (e : Expr) (explicit : Bool) (q : Query) : Nat × Query :=
  let e := e.stripCasts
  let q := if explicit then { q with starred := false } else q
  match q.slotOf e with
  | some i => (i, q)
  | none => (q.projection.length, q.appendValue e)

/-- The expression in the slot for `e`, appended if there is none, and the query with it. -/
def addSlot (e : Expr) (q : Query) : Expr × Query :=
  let (i, q) := q.project e false
  (q.projection.getD i e, q)

end Query

end QueryTree
