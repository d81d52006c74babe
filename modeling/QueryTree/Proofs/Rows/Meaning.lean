/-
What rows a query returns. Base tables have given contents, and the values of expressions come from
an interpretation; the clauses of a query then act in the order FROM, WHERE, ORDER BY, output,
DISTINCT, OFFSET, LIMIT. `Interpretation.Lawful` says what is asked of an interpretation.
-/
import QueryTree.Proofs.Rows.Sorting
import QueryTree.Sql
import QueryTree.Equivalence
import QueryTree.Name

namespace QueryTree

variable {V : Type}

/-! ## Rows and scopes -/

/-- What one table contributes to a row of a FROM list. -/
structure Part (V : Type) where
  table : Option String
  names : List (Option String)
  values : List V

/-- What an expression is evaluated in: a row of the FROM list, the rows of the enclosing queries,
innermost first, and the rows that the row is numbered among, with its place there. -/
structure Scope (V : Type) where
  row : List (Part V) := []
  outer : List (List (Part V)) := []
  peers : List (List (Part V)) := []
  place : Nat := 0

/-- The values of the columns that answer to `name`, whatever its case. -/
def Part.answers (name : String) (p : Part V) : List V :=
  ((p.names.zip p.values).filter fun c => c.1.any (Name.clash · name)).map Prod.snd

/-- The values of the columns that answer to `table.name` in the row at hand. -/
def Scope.answers (table name : String) (s : Scope V) : List V :=
  (s.row.filter (·.table == some table)).flatMap (Part.answers name)

/-- Rows with all that expressions can see from them. -/
def scopesOf (outer : List (List (Part V))) (rows : List (List (Part V))) : List (Scope V) :=
  rows.zipIdx.map fun (row, place) => { row, outer, peers := rows, place }

/-! ## Interpretations -/

/-- The contents of base tables, and how the values of expressions are found and used. -/
structure Interpretation (V : Type) where
  columns : (schema : Option String) → (table : String) → List String
  contents : (schema : Option String) → (table : String) → List (List V)
  null : V
  number : Int → V
  eval : Expr → Scope V → V
  /-- A condition of this value is met. -/
  holds : V → Bool
  /-- The number of rows that a LIMIT or OFFSET of this value stands for. -/
  count : V → Nat
  compare : V → V → Ordering

namespace Interpretation

/-- Compares two rows by sort keys. -/
def compareKeys (I : Interpretation V) (keys : List OrderKey) : Scope V → Scope V → Ordering :=
  compareBy I.compare (keys.map fun k => (I.eval k.expr, k.direction))

/-- The number of a row among its peers in the order of the keys, counted from one. -/
def position (I : Interpretation V) (keys : List OrderKey) (s : Scope V) : Nat :=
  (sortBy (I.compareKeys keys) (scopesOf s.outer s.peers)).findIdx (·.place == s.place) + 1

/-- The number of rows that a LIMIT or OFFSET stands for. -/
def bound (I : Interpretation V) (outer : List (List (Part V))) (e : Expr) : Nat :=
  I.count (I.eval e { outer })

/-- Names do not matter, structurally equal expressions have equal values, casts that change at
most nullability change no value, and a reference to an output reads the one column that answers to
it. Values are in a total preorder. -/
structure Lawful (I : Interpretation V) : Prop where
  compare : Std.TransCmp I.compare
  named : ∀ (name : String) (e : Expr) (s : Scope V), I.eval (.named name e) s = I.eval e s
  equiv : ∀ {a b : Expr}, a.equiv b = true → ∀ s : Scope V, I.eval a s = I.eval b s
  casts : ∀ (e : Expr) (s : Scope V), I.eval e.stripCasts s = I.eval e s
  output : ∀ {query name : String} {s : Scope V} {v : V} (type : DataType),
    s.answers query name = [v] → I.eval (.output query name type) s = v

/-- Integer literals have their values, and a LIMIT or OFFSET of a number stands for so many rows. -/
structure Counting (I : Interpretation V) : Prop extends Lawful I where
  integer : ∀ (n : Int64) (type : DataType) (s : Scope V),
    I.eval (.constant (.integer n) type) s = I.number n.toInt
  count : ∀ n : Nat, I.count (I.number n) = n

/-- Numbers are added and compared as they are, AND is met if both sides are, and the number of a row
is its position. -/
structure Numbering (I : Interpretation V) : Prop extends Counting I where
  add : ∀ {a b : Expr} {s : Scope V} {m n : Int}, I.eval a s = I.number m → I.eval b s = I.number n →
    I.eval (.binary .add a b) s = I.number (m + n)
  greaterThan : ∀ {a b : Expr} {s : Scope V} {m n : Int}, I.eval a s = I.number m → I.eval b s = I.number n →
    I.holds (I.eval (.binary .greaterThan a b) s) = decide (m > n)
  lessThanOrEqual : ∀ {a b : Expr} {s : Scope V} {m n : Int}, I.eval a s = I.number m →
    I.eval b s = I.number n → I.holds (I.eval (.binary .lessThanOrEqual a b) s) = decide (m ≤ n)
  and : ∀ (a b : Expr) (s : Scope V),
    I.holds (I.eval (.binary .and a b) s) = (I.holds (I.eval a s) && I.holds (I.eval b s))
  rowNumber : ∀ (keys : List OrderKey) (s : Scope V), I.eval (.rowNumber keys) s = I.number (I.position keys s)

/-- A number of rows: an integer literal that is not negative, or a parameter that stands for one. -/
inductive Counts (I : Interpretation V) : Expr → Nat → Prop
  | constant {n : Int64} {type : DataType} (nonneg : 0 ≤ n) : Counts I (.constant (.integer n) type) n.toNatClampNeg
  | parameter {name : String} {type : DataType} {n : Nat}
      (value : ∀ s : Scope V, I.eval (.parameter name type) s = I.number n) : Counts I (.parameter name type) n

namespace Counts

variable {I : Interpretation V} {e : Expr} {n : Nat}

theorem toInt_eq {n : Int64} (nonneg : 0 ≤ n) : n.toInt = n.toNatClampNeg := by
  rw [Int64.toNatClampNeg, Int.toNat_of_nonneg (Int64.le_iff_toInt_le.1 nonneg)]

theorem integer (h : I.Counts e n) {m : Int64} (hm : e.integer? = some m) : m.toInt = n := by
  cases h with
  | constant nonneg => cases hm; exact toInt_eq nonneg
  | parameter => cases hm

theorem eval_eq (hI : I.Counting) (h : I.Counts e n) (s : Scope V) : I.eval e s = I.number n := by
  cases h with
  | constant nonneg => rw [hI.integer, toInt_eq nonneg]
  | parameter value => exact value s

theorem bound_eq (hI : I.Counting) (h : I.Counts e n) (outer : List (List (Part V))) : I.bound outer e = n := by
  rw [bound, h.eval_eq hI, hI.count]

end Counts

end Interpretation

/-! ## Output -/

section Output

variable {α : Type}

/-- What a wildcard over `table`, or over all tables without one, takes from the tables. -/
def wildcardOf (table : Option String) (parts : List (Option String × List α)) : List α :=
  (parts.filter fun p => table.isNone || p.1 == table).flatMap Prod.snd

/-- What a slot adds to the output. -/
def slotColumns (parts : List (Option String × List α)) (column : Expr → α) : Expr → List α
  | .star table => wildcardOf (some table) parts
  | e => [column e]

/-- The output of a query from what its tables have: the wildcard ahead of the slots, and all
tables where nothing is projected. -/
def Query.columnsOf (parts : List (Option String × List α)) (column : Expr → α) (q : Query) : List α :=
  (if q.starred then wildcardOf q.wildcardTable parts
    else if q.projection.isEmpty then wildcardOf none parts
    else []) ++ q.projection.flatMap (slotColumns parts column)

end Output

mutual

def Table.columnNames (I : Interpretation V) : Table → List (Option String)
  | .base table schema _ _ => (I.columns schema table).map some
  | .join _ target _ => target.columnNames I
  | .nested q => q.columnNames I

/-- The names of the columns that a query outputs. -/
def Query.columnNames (I : Interpretation V) : Query → List (Option String)
  | q@{ tables, .. } => q.columnsOf (tableColumnNames I tables) Expr.outputName

def tableColumnNames (I : Interpretation V) : List Table → List (Option String × List (Option String))
  | [] => []
  | t :: ts => (t.name, t.columnNames I) :: tableColumnNames I ts

end

@[simp] theorem tableColumnNames_eq_map (I : Interpretation V) (ts : List Table) :
    tableColumnNames I ts = ts.map fun t => (t.name, t.columnNames I) := by
  induction ts <;> simp [tableColumnNames, *]

namespace Query

/-- The output for one row. -/
def outputRow (I : Interpretation V) (q : Query) (s : Scope V) : List V :=
  q.columnsOf (s.row.map fun p => (p.table, p.values)) (I.eval · s)

/-! ## Clauses -/

/-- WHERE. -/
def kept (I : Interpretation V) (outer rows : List (List (Part V))) (q : Query) : List (List (Part V)) :=
  rows.filter fun row => q.predicate.all fun e => I.holds (I.eval e { row, outer })

/-- OFFSET, then LIMIT. -/
def page (I : Interpretation V) (outer : List (List (Part V))) (q : Query) {α : Type} (rows : List α) : List α :=
  let rows := q.offset.elim rows fun e => rows.drop (I.bound outer e)
  q.limit.elim rows fun e => rows.take (I.bound outer e)

/-- DISTINCT, then OFFSET, then LIMIT. -/
def paged [DecidableEq V] (I : Interpretation V) (outer : List (List (Part V))) (q : Query)
    (rows : List (List V)) : List (List V) :=
  q.page I outer (if q.distinct then rows.eraseDups else rows)

/-- The rows of a query whose FROM list has the given rows. -/
def select [DecidableEq V] (I : Interpretation V) (outer rows : List (List (Part V))) (q : Query) :
    List (List V) :=
  q.paged I outer ((sortBy (I.compareKeys q.orderBy) (scopesOf outer (q.kept I outer rows))).map
    (q.outputRow I))

end Query

mutual

/-- What a table contributes to the rows that begin with `left`. Only a lateral join sees `left`. -/
def Table.parts [DecidableEq V] (I : Interpretation V) (outer : List (List (Part V))) (left : List (Part V)) :
    Table → List (Part V)
  | .base table schema name _ =>
    (I.contents schema table).map fun values => ⟨some name, (I.columns schema table).map some, values⟩
  | .join kind target condition =>
    let outside := if kind = .crossLateral then left :: outer else outer
    let found := (target.parts I outside left).filter fun part =>
      condition.all fun e => I.holds (I.eval e { row := left ++ [part], outer })
    if kind = .leftOuter ∧ found.isEmpty then
      [⟨target.name, target.columnNames I, (target.columnNames I).map fun _ => I.null⟩]
    else found
  | .nested q => (q.rows I outer).map fun values => ⟨q.name, q.columnNames I, values⟩

/-- The rows that a query returns, below the given rows of enclosing queries. -/
def Query.rows [DecidableEq V] (I : Interpretation V) (outer : List (List (Part V))) : Query → List (List V)
  | q@{ tables, .. } => q.select I outer (fromRows I outer tables [[]])

/-- The rows of a FROM list, from those of the tables ahead of it. -/
def fromRows [DecidableEq V] (I : Interpretation V) (outer : List (List (Part V))) :
    List Table → List (List (Part V)) → List (List (Part V))
  | [], rows => rows
  | t :: ts, rows => fromRows I outer ts <|
    rows.flatMap fun left => (t.parts I outer left).map fun part => left ++ [part]

end

end QueryTree
