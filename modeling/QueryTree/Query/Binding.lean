/-
Binding of columns. The first table that satisfies the query source supplies the column. A base
table names it directly; a nested query binds it within itself, makes sure that its output has it,
and hands out a reference to that output.
-/
import QueryTree.PropertyMap
import QueryTree.Settings
import QueryTree.Query.Lift
import QueryTree.Query.Projection
import QueryTree.StarMemo

namespace QueryTree

/-- The same outcome with the state seen as part of a larger one. -/
def mapState {ε σ τ α : Type} (f : σ → τ) : EStateM.Result ε σ α → EStateM.Result ε τ α
  | .ok a s => .ok a (f s)
  | .error e s => .error e (f s)

namespace Query

/-- What stands for a column in this query: through a wildcard the memo's entry, else the slot that
holds it, else the column itself. -/
def standIn (threshold : Nat) (bound : Expr) (q : Query) : Expr × Query :=
  if q.starred then
    let (e, memo) := q.memo.remember threshold bound
    (e, { q with memo })
  else ((q.projection.find? (·.equiv bound)).getD bound, q)

/-- The wildcard has the column in its output. -/
def wildcardCovers (e : Expr) (q : Query) : Bool :=
  match e.unnamed.owner with
  | some table => q.wildcardTable == some table
  | none => false

/-- Makes sure that this query, named `name`, outputs the column, and refers to it. -/
def expose (name : String) (column : Expr) (q : Query) : EStateM.Result Error Query Expr :=
  let (shown, q) :=
    if q.starred && q.wildcardCovers column then (column, q) else q.addSlot column
  match shown.lift name with
  | .ok e => .ok e q
  | .error err => .error err q

end Query

mutual

/-- Binds a column in a table that satisfies `source`. -/
def Table.bind (threshold : Nat) (column : String) (type : DataType) (source : Source) :
    Table → EStateM.Result Error Table Expr
  | t@(.base _ _ name own) => .ok (.column name own column type) t
  | .join kind target condition =>
    mapState (.join kind · condition) (target.bind threshold column type source)
  | t@(.nested q) =>
    match q.name with
    | none => .error .unnamedQuery t
    | some name =>
      mapState .nested <| match q.bind threshold column type source with
        | .ok e q => q.expose name e
        | .error err q => .error err q

/-- Binds a column in the first table of a query that satisfies `source`. -/
def Query.bind (threshold : Nat) (column : String) (type : DataType) (source : Source) :
    Query → EStateM.Result Error Query Expr
  | q@{ tables, .. } =>
    match bindFirst threshold column type source tables with
    | .error err tables => .error err { q with tables }
    | .ok bound tables =>
      let (e, q) := { q with tables }.standIn threshold bound
      .ok e q

def bindFirst (threshold : Nat) (column : String) (type : DataType) (source : Source) :
    List Table → EStateM.Result Error (List Table) Expr
  | [] => .error (.unknownSource source) []
  | t :: ts =>
    if t.serves source then mapState (· :: ts) (t.bind threshold column type source)
    else mapState (t :: ·) (bindFirst threshold column type source ts)

end

namespace Query

/-- Binds a column of the table that satisfies `source`. -/
def resolveColumn (settings : Settings) (column : String) (type : DataType) (source : Source) :
    EStateM Error Query Expr := fun q =>
  if column.isEmpty then .error .emptyColumnName q
  else q.bind settings.indexThreshold column type source

/-- Binds the column that stores a property. -/
def resolveProperty (settings : Settings) (properties : PropertyMap) (property : String)
    (source : Source) : EStateM Error Query Expr :=
  match properties.column? property source with
  | some (column, type) => resolveColumn settings column type source
  | none => throw (.propertyWithoutColumn property source)

end Query

end QueryTree
