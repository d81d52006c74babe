/-
The queries of a tree. A pass over a tree that changes no query below the root changes the root
alone.
-/
import QueryTree.BottomUp

namespace QueryTree

/-! ## The queries of a tree -/

mutual

/-- The queries in an expression: those under `EXISTS` and all below them. -/
def Expr.queries : Expr → List Query
  | .named _ inner => inner.queries
  | .rowNumber keys => keyQueries keys
  | .cast operand _ => operand.queries
  | .binary _ left right => left.queries ++ right.queries
  | .not operand => operand.queries
  | .call _ args _ => exprQueries args
  | .exist query => query.queries
  | .column _ _ _ _ | .star _ | .output _ _ _ | .constant _ _ | .parameter _ _ => []

def Table.queries : Table → List Query
  | .base _ _ _ _ => []
  | .join _ target condition => target.queries ++ optionQueries condition
  | .nested query => query.queries

/-- The query itself and all queries below it. -/
def Query.queries : Query → List Query
  | q@{ tables, projection, predicate, orderBy, limit, offset, .. } =>
    q :: (tableQueries tables ++ exprQueries projection ++ optionQueries predicate ++ keyQueries orderBy
      ++ optionQueries limit ++ optionQueries offset)

def exprQueries : List Expr → List Query
  | [] => []
  | e :: es => e.queries ++ exprQueries es

def optionQueries : Option Expr → List Query
  | none => []
  | some e => e.queries

def keyQueries : List OrderKey → List Query
  | [] => []
  | ⟨e, _⟩ :: keys => e.queries ++ keyQueries keys

def tableQueries : List Table → List Query
  | [] => []
  | t :: ts => t.queries ++ tableQueries ts

end

/-- The queries below a query, in its tables and its expressions. -/
def Query.subqueries (q : Query) : List Query := q.queries.tail

theorem Query.queries_eq (q : Query) : q.queries = q :: q.subqueries := by
  cases q; rw [subqueries, queries, List.tail_cons]

/-! ## Passes that change nothing -/

section Unchanged

variable {m : Type → Type} [Monad m] [LawfulMonad m] {f : Query → m Query}

mutual

theorem Expr.mapQueriesM_of_pure : ∀ {e : Expr}, (∀ q ∈ e.queries, f q = pure q) → e.mapQueriesM f = pure e
  | .named _ inner, h => by
    rw [Expr.queries] at h
    rw [Expr.mapQueriesM, Expr.mapQueriesM_of_pure h, pure_bind]
  | .rowNumber keys, h => by
    rw [Expr.queries] at h
    rw [Expr.mapQueriesM, keysMapQueriesM_of_pure h, pure_bind]
  | .cast operand _, h => by
    rw [Expr.queries] at h
    rw [Expr.mapQueriesM, Expr.mapQueriesM_of_pure h, pure_bind]
  | .binary _ left right, h => by
    rw [Expr.queries, List.forall_mem_append] at h
    rw [Expr.mapQueriesM, Expr.mapQueriesM_of_pure h.1, pure_bind, Expr.mapQueriesM_of_pure h.2, pure_bind]
  | .not operand, h => by
    rw [Expr.queries] at h
    rw [Expr.mapQueriesM, Expr.mapQueriesM_of_pure h, pure_bind]
  | .call _ args _, h => by
    rw [Expr.queries] at h
    rw [Expr.mapQueriesM, exprsMapQueriesM_of_pure h, pure_bind]
  | .exist query, h => by
    rw [Expr.queries, Query.queries_eq, List.forall_mem_cons] at h
    rw [Expr.mapQueriesM, Query.mapQueriesM_of_pure h.2, h.1, pure_bind]
  | .column .., _ | .star _, _ | .output .., _ | .constant .., _ | .parameter .., _ => by rw [Expr.mapQueriesM]

theorem Table.mapQueriesM_of_pure : ∀ {t : Table}, (∀ q ∈ t.queries, f q = pure q) → t.mapQueriesM f = pure t
  | .base .., _ => by rw [Table.mapQueriesM]
  | .join _ target condition, h => by
    rw [Table.queries, List.forall_mem_append] at h
    rw [Table.mapQueriesM, Table.mapQueriesM_of_pure h.1, pure_bind, optionMapQueriesM_of_pure h.2, pure_bind]
  | .nested query, h => by
    rw [Table.queries, Query.queries_eq, List.forall_mem_cons] at h
    rw [Table.mapQueriesM, Query.mapQueriesM_of_pure h.2, h.1, pure_bind]

/-- Where nothing below the root is changed, the root alone is. -/
theorem Query.mapQueriesM_of_pure : ∀ {q : Query}, (∀ x ∈ q.subqueries, f x = pure x) → q.mapQueriesM f = f q
  | ⟨tables, projection, predicate, orderBy, limit, offset, _, _, _, _, _, _⟩, h => by
    rw [Query.subqueries, Query.queries, List.tail_cons] at h
    simp only [List.forall_mem_append] at h
    obtain ⟨⟨⟨⟨⟨ht, hp⟩, hw⟩, hk⟩, hl⟩, ho⟩ := h
    rw [Query.mapQueriesM, tablesMapQueriesM_of_pure ht, pure_bind, exprsMapQueriesM_of_pure hp, pure_bind,
      optionMapQueriesM_of_pure hw, pure_bind, keysMapQueriesM_of_pure hk, pure_bind, optionMapQueriesM_of_pure hl,
      pure_bind, optionMapQueriesM_of_pure ho, pure_bind]

theorem exprsMapQueriesM_of_pure : ∀ {es : List Expr}, (∀ q ∈ exprQueries es, f q = pure q) →
    exprsMapQueriesM f es = pure es
  | [], _ => by rw [exprsMapQueriesM]
  | e :: es, h => by
    rw [exprQueries, List.forall_mem_append] at h
    rw [exprsMapQueriesM, Expr.mapQueriesM_of_pure h.1, pure_bind, exprsMapQueriesM_of_pure h.2, pure_bind]

theorem optionMapQueriesM_of_pure : ∀ {e : Option Expr}, (∀ q ∈ optionQueries e, f q = pure q) →
    optionMapQueriesM f e = pure e
  | none, _ => by rw [optionMapQueriesM]
  | some e, h => by
    rw [optionQueries] at h
    rw [optionMapQueriesM, Expr.mapQueriesM_of_pure h, pure_bind]

theorem keysMapQueriesM_of_pure : ∀ {keys : List OrderKey}, (∀ q ∈ keyQueries keys, f q = pure q) →
    keysMapQueriesM f keys = pure keys
  | [], _ => by rw [keysMapQueriesM]
  | ⟨e, _⟩ :: keys, h => by
    rw [keyQueries, List.forall_mem_append] at h
    rw [keysMapQueriesM, Expr.mapQueriesM_of_pure h.1, pure_bind, keysMapQueriesM_of_pure h.2, pure_bind]

theorem tablesMapQueriesM_of_pure : ∀ {ts : List Table}, (∀ q ∈ tableQueries ts, f q = pure q) →
    tablesMapQueriesM f ts = pure ts
  | [], _ => by rw [tablesMapQueriesM]
  | t :: ts, h => by
    rw [tableQueries, List.forall_mem_append] at h
    rw [tablesMapQueriesM, Table.mapQueriesM_of_pure h.1, pure_bind, tablesMapQueriesM_of_pure h.2, pure_bind]

end

end Unchanged

end QueryTree
