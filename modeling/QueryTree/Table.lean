/-
Tables of a FROM list and what a query finds in its own: names, query sources, the table that the
wildcard stands for.
-/
import QueryTree.Error

namespace QueryTree

/-! ## Single tables -/

namespace JoinKind

/-- Cross joins have no condition. -/
def hasCondition : JoinKind → Bool
  | inner | leftOuter => true
  | cross | crossLateral => false

def sql : JoinKind → String
  | inner => "INNER JOIN"
  | leftOuter => "LEFT JOIN"
  | cross => "CROSS JOIN"
  | crossLateral => "CROSS JOIN LATERAL"

end JoinKind

namespace Table

/-- A join; the condition of a cross join is dropped. -/
def joined (kind : JoinKind) (target : Table) (condition : Option Expr) : Table :=
  join kind target (if kind.hasCondition then condition else none)

/-- A query as a table. It must have the name that the enclosing query lists it under. -/
def ofQuery (q : Query) : Except Error Table :=
  if q.name.isSome then .ok (nested q) else .error .unnamedQuery

/-- The name under which the enclosing query lists this table. -/
def name : Table → Option String
  | base _ _ name _ => some name
  | join _ target _ => target.name
  | nested q => q.name

/-- The table below all joins. -/
def unjoined : Table → Table
  | join _ target _ => target.unjoined
  | t => t

/-- The table with the one below all joins replaced. -/
def withUnjoined : Table → Table → Table
  | join kind target condition, new => join kind (target.withUnjoined new) condition
  | _, new => new

def query? (t : Table) : Option Query :=
  match t.unjoined with
  | nested q => some q
  | _ => none

def isJoin : Table → Bool
  | join _ _ _ => true
  | _ => false

end Table

/-! ## Tables below -/

mutual

/-- The query sources that a table satisfies. -/
def Table.sources : Table → List Source
  | .base _ _ _ source => source.toList
  | .join _ target _ => target.sources
  | .nested q => q.sources

/-- The query sources that the tables of a query satisfy, each once, in order of first mention. -/
def Query.sources : Query → List Source
  | { tables, .. } => (tableSources tables).eraseDups

def tableSources : List Table → List Source
  | [] => []
  | t :: ts => t.sources ++ tableSources ts

end

@[simp] theorem tableSources_eq_flatMap (ts : List Table) :
    tableSources ts = ts.flatMap Table.sources := by
  induction ts <;> simp [tableSources, *]

mutual

/-- The table satisfies query source `s`. -/
def Table.serves (s : Source) : Table → Bool
  | .base _ _ _ source => source == some s
  | .join _ target _ => target.serves s
  | .nested q => q.serves s

def Query.serves (s : Source) : Query → Bool
  | { tables, .. } => anyServes s tables

def anyServes (s : Source) : List Table → Bool
  | [] => false
  | t :: ts => t.serves s || anyServes s ts

end

@[simp] theorem anyServes_eq_any (s : Source) (ts : List Table) :
    anyServes s ts = ts.any (Table.serves s) := by
  induction ts <;> simp [anyServes, *]

theorem Query.serves_eq_any (s : Source) (q : Query) : q.serves s = q.tables.any (Table.serves s) := by
  cases q; rw [serves, anyServes_eq_any]

mutual

/-- `name` is the name of this table or of one inside its nested query. -/
def Table.mentions (name : String) : Table → Bool
  | .base _ _ own _ => own == name
  | .join _ target _ => target.mentions name
  | .nested q => q.name == some name || q.mentions name

/-- `name` is the name of a table of this query or of one nested below. -/
def Query.mentions (name : String) : Query → Bool
  | { tables, .. } => anyMentions name tables

def anyMentions (name : String) : List Table → Bool
  | [] => false
  | t :: ts => t.mentions name || anyMentions name ts

end

@[simp] theorem anyMentions_eq_any (name : String) (ts : List Table) :
    anyMentions name ts = ts.any (Table.mentions name) := by
  induction ts <;> simp [anyMentions, *]

theorem Query.mentions_eq_any (name : String) (q : Query) :
    q.mentions name = q.tables.any (Table.mentions name) := by
  cases q; rw [mentions, anyMentions_eq_any]

/-! ## Tables of a query -/

namespace Query

/-- The first table that satisfies query source `s`. -/
def tableServing (s : Source) (q : Query) : Except Error Table :=
  match q.tables.find? (·.serves s) with
  | some t => .ok t
  | none => .error (.unknownSource s)

/-- Adds a table at the end. Several tables may satisfy one source. -/
def appendTable (t : Table) (q : Query) : Query := { q with tables := q.tables ++ [t] }

/-- Takes the first table named `name` out, and with it the choice of that name for the wildcard. -/
def detachTable (name : String) (q : Query) : Option Table × Query :=
  match q.tables.findIdx? (·.name == some name) with
  | none => (none, q)
  | some i => (q.tables[i]?, { q with
      tables := q.tables.eraseIdx i
      wildcardChoice := if q.wildcardChoice == some name then none else q.wildcardChoice })

/-! ## The wildcard -/

/-- The name of the table that the wildcard stands for: the one chosen, else the only one. -/
def wildcardTable (q : Query) : Option String :=
  match q.wildcardChoice, q.tables with
  | some name, _ => some name
  | none, [t] => t.name
  | none, _ => none

def chooseWildcard (name : String) : EStateM Error Query Unit := do
  unless (← get).tables.any (·.name == some name) do
    throw (.wildcardTableMissing name)
  modify ({ · with wildcardChoice := some name })

/-- Turns the wildcard on or off. It can be on only over a definite table. -/
def switchWildcard (starred : Bool) : EStateM Error Query Unit := do
  let q ← get
  if starred && q.wildcardTable.isNone then
    throw (.wildcardUnresolved q.tables.length)
  set { q with starred }

end Query

end QueryTree
