/-
Paging by row numbers, for engines without OFFSET. A query with an offset is pushed down, the nested
query gets a row-number column in the order of its sort keys, and limit and offset become bounds on
that column. The rows of a DISTINCT query are numbered one level further out, after duplicates are
gone.
-/
import QueryTree.BottomUp
import QueryTree.Dialect
import QueryTree.Edit
import QueryTree.Query.Clauses
import QueryTree.Query.StarExpansion

namespace QueryTree

/-! ## One query -/

/-- The query has an offset and no row number among its slots. -/
def Query.needsNumbering (q : Query) : Bool :=
  q.offset.isSome && !q.projection.any Expr.numbersRows

namespace Expr

/-- `offset + limit`, as one number if both are numbers and the sum is in range. -/
def lastRow (offset limit : Expr) : Expr :=
  let sum := binary .add offset limit
  match offset.integer?, limit.integer? with
  | some o, some l =>
    let total := o.toInt + l.toInt
    if Int64.minValue.toInt ≤ total && total ≤ Int64.maxValue.toInt then
      constant (.integer (Int64.ofInt total)) offset.type
    else sum
  | _, _ => sum

/-- The conditions on a row number that keep what OFFSET and LIMIT would. -/
def pagingBounds (rowNumber : Expr) (offset limit : Option Expr) : List Expr :=
  match offset, limit with
  | none, _ => []
  | some o, none => [binary .greaterThan rowNumber o]
  | some o, some l =>
    [binary .greaterThan rowNumber o, binary .lessThanOrEqual rowNumber (lastRow o l)]

end Expr

namespace Edit

/-- Moves DISTINCT one level further down. Paging stays, over the columns of the DISTINCT query. -/
def sinkDistinct : Edit Unit := do
  let q ← query
  startAfter none
  limitTo none
  pushDown
  onQuery Query.expandStar
  startAfter q.offset
  limitTo q.limit

/-- Puts a row number under the given name into a paged query and takes the paging out. It answers
with the conditions that replace the paging in the enclosing query. -/
def numberRows (column : String) : Edit (List Expr) := do
  if (← query).distinct then sinkDistinct
  let q ← query
  let some name := q.name | throw .unnamedQuery
  let keys := q.orderBy.map fun key => { key with expr := key.expr.unnamed }
  let keys := if keys.isEmpty then [⟨Expr.int 1, .asc⟩] else keys
  modifyQuery Query.unordered
  let slot ← modifyGet fun d =>
    let (e, query) := d.query.addSlot (Expr.withName column (.rowNumber keys))
    (e, { d with query })
  match slot.lift name with
  | .error e => throw e
  | .ok rowNumber =>
    let q ← query
    startAfter none
    limitTo none
    return rowNumber.pagingBounds q.offset q.limit

/-- Replaces the paging of a query by conditions on a row number of the given name. The output is
fixed before the row number joins that of the nested query. -/
def replacePaging (column : String) : Edit Unit := do
  let visible := (← query).projection.length
  pushDown
  let memo ← onNested (return (← query).memo.entries)
  if 0 < visible || !memo.isEmpty then
    onQuery (Query.expandStarTo (some visible))
  let bounds ← onNested (numberRows column)
  match Expr.conjunction bounds with
  | some condition => modifyQuery (Query.restrict condition)
  | none => pure ()
  if (← query).name.isSome then
    modifyQuery Query.unordered

end Edit

/-! ## The pass -/

/-- Where a pass over the queries of a tree stands. -/
structure PagingPass where
  session : Session
  /-- Row-number columns named so far, in earlier trees too. -/
  named : Nat := 0
  /-- Queries of this tree whose paging is replaced. -/
  replaced : Nat := 0
  /-- What ended the pass, if anything did. -/
  failure : Option Error := none

namespace PagingPass

/-- The name of the next row-number column: the one chosen in the settings, then that one with a number. -/
def columnName (p : PagingPass) : String :=
  if p.named = 0 then p.session.settings.rowNumberName
  else Name.numbered p.session.settings.rowNumberName p.named

/-- Replaces the paging of one query where that is needed. After a failure nothing is touched. -/
def step (q : Query) : StateM PagingPass Query := fun p =>
  if p.failure.isSome || !q.needsNumbering then (q, p)
  else
    match Edit.replacePaging p.columnName ⟨q, p.session⟩ with
    | .ok () d =>
      (d.query, { p with session := d.session, named := p.named + 1, replaced := p.replaced + 1 })
    | .error e d =>
      (d.query, { p with session := d.session, named := p.named + 1, failure := some e })

end PagingPass

/-- The number of queries changed or the failure, the tree, and the session and column count to go
on with. -/
structure PagingResult where
  result : Except Error Nat
  query : Query
  session : Session
  named : Nat

/-- Replaces the paging of all queries of a tree, where the dialect has no OFFSET but can number
rows. A failure leaves the tree as far as the pass has got. -/
def Dialect.replacePaging (dialect : Dialect) (named : Nat) (q : Query) (session : Session) :
    PagingResult :=
  if dialect.hasOffset || !dialect.hasWindows then ⟨.ok 0, q, session, named⟩
  else
    let (q, p) := (q.mapQueriesM PagingPass.step).run { session, named }
    ⟨match p.failure with
      | some e => .error e
      | none => .ok p.replaced, q, p.session, p.named⟩

end QueryTree
