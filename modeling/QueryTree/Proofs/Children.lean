/-
A tree one level at a time. The children of a query are the queries in its FROM list and those that
stand under EXISTS in its expressions. A pass over all queries of a tree treats the children of a
query one after the other and then the query itself, so that what it does to a tree follows by
induction on children from what it does to one query.
-/
import QueryTree.Paging
import QueryTree.Proofs.Names
import QueryTree.Proofs.Paging.Below
import QueryTree.Walk

namespace QueryTree

/-! ## Children -/

mutual

/-- The queries that stand under `EXISTS` in an expression. -/
def Expr.children : Expr → List Query
  | .named _ inner => inner.children
  | .rowNumber keys => keyChildren keys
  | .cast operand _ => operand.children
  | .binary _ left right => left.children ++ right.children
  | .not operand => operand.children
  | .call _ args _ => exprChildren args
  | .exist query => [query]
  | .column _ _ _ _ | .star _ | .output _ _ _ | .constant _ _ | .parameter _ _ => []

def exprChildren : List Expr → List Query
  | [] => []
  | e :: es => e.children ++ exprChildren es

def keyChildren : List OrderKey → List Query
  | [] => []
  | ⟨e, _⟩ :: keys => e.children ++ keyChildren keys

end

/-- The nested query of a table and the queries in its join condition. -/
def Table.children : Table → List Query
  | .base _ _ _ _ => []
  | .join _ target condition => target.children ++ condition.toList.flatMap Expr.children
  | .nested query => [query]

theorem Table.mem_children_of_query? {c : Query} : ∀ {t : Table}, t.query? = some c → c ∈ t.children
  | .base .., h => by cases h
  | .join _ target _, h => List.mem_append_left _ (mem_children_of_query? (t := target) h)
  | .nested _, h => by cases h; exact List.mem_singleton_self _

@[simp] theorem exprChildren_eq_flatMap (es : List Expr) : exprChildren es = es.flatMap Expr.children := by
  induction es <;> simp [exprChildren, *]

@[simp] theorem keyChildren_eq_flatMap (keys : List OrderKey) :
    keyChildren keys = keys.flatMap fun k => k.expr.children := by
  induction keys with
  | nil => rfl
  | cons k keys ih => cases k; simp [keyChildren, ih]

namespace Query

/-- The expressions that a walk sees, in the order in which a pass treats them. -/
def exprs (q : Query) : List Expr :=
  q.projection ++ q.predicate.toList ++ q.orderBy.map (·.expr) ++ q.limit.toList ++ q.offset.toList

/-- The queries right below a query, in its tables and its expressions. -/
def children (q : Query) : List Query :=
  q.tables.flatMap Table.children ++ q.exprs.flatMap Expr.children

end Query

/-! ## Queries by way of children -/

mutual

theorem Expr.queries_eq_flatMap : ∀ e : Expr, e.queries = e.children.flatMap Query.queries
  | .named _ inner => Expr.queries_eq_flatMap inner
  | .rowNumber keys => keyQueries_eq_flatMap keys
  | .cast operand _ => Expr.queries_eq_flatMap operand
  | .binary _ left right => by
    rw [Expr.queries, Expr.children, List.flatMap_append, Expr.queries_eq_flatMap left, Expr.queries_eq_flatMap right]
  | .not operand => Expr.queries_eq_flatMap operand
  | .call _ args _ => exprQueries_eq_flatMap args
  | .exist query => by rw [Expr.queries, Expr.children, List.flatMap_singleton]
  | .column .. | .star _ | .output .. | .constant .. | .parameter .. => rfl

theorem exprQueries_eq_flatMap : ∀ es : List Expr, exprQueries es = (exprChildren es).flatMap Query.queries
  | [] => rfl
  | e :: es => by
    rw [exprQueries, exprChildren, List.flatMap_append, Expr.queries_eq_flatMap e, exprQueries_eq_flatMap es]

theorem keyQueries_eq_flatMap : ∀ keys : List OrderKey, keyQueries keys = (keyChildren keys).flatMap Query.queries
  | [] => rfl
  | ⟨e, _⟩ :: keys => by
    rw [keyQueries, keyChildren, List.flatMap_append, Expr.queries_eq_flatMap e, keyQueries_eq_flatMap keys]

end

theorem optionQueries_eq_flatMap (e : Option Expr) :
    optionQueries e = (e.toList.flatMap Expr.children).flatMap Query.queries := by
  cases e with
  | none => rfl
  | some e => rw [optionQueries, Expr.queries_eq_flatMap, Option.toList_some, List.flatMap_singleton]

theorem Table.queries_eq_flatMap : ∀ t : Table, t.queries = t.children.flatMap Query.queries
  | .base .. => rfl
  | .join _ target condition => by
    rw [Table.queries, Table.children, List.flatMap_append, Table.queries_eq_flatMap target, optionQueries_eq_flatMap]
  | .nested query => by rw [Table.queries, Table.children, List.flatMap_singleton]

theorem tableQueries_eq_flatMap (ts : List Table) :
    tableQueries ts = (ts.flatMap Table.children).flatMap Query.queries := by
  induction ts with
  | nil => rfl
  | cons t ts ih => rw [tableQueries, List.flatMap_cons, List.flatMap_append, Table.queries_eq_flatMap, ih]

namespace Query

theorem subqueries_eq_flatMap (q : Query) : q.subqueries = q.children.flatMap queries := by
  cases q
  simp [subqueries, queries, children, exprs, tableQueries_eq_flatMap, exprQueries_eq_flatMap, keyQueries_eq_flatMap,
    optionQueries_eq_flatMap, List.flatMap_append, List.flatMap_map]

theorem mem_queries_iff {x q : Query} : x ∈ q.queries ↔ x = q ∨ ∃ c ∈ q.children, x ∈ c.queries := by
  rw [queries_eq, List.mem_cons, subqueries_eq_flatMap, List.mem_flatMap]

theorem self_mem_queries (q : Query) : q ∈ q.queries := mem_queries_iff.2 (.inl rfl)

theorem length_queries_lt {c q : Query} (h : c ∈ q.children) : c.queries.length < q.queries.length := by
  have hsub : c.queries.Sublist (q.children.flatMap queries) := List.sublist_flatten_of_mem (List.mem_map_of_mem h)
  rw [queries_eq q, List.length_cons, subqueries_eq_flatMap]
  exact Nat.lt_succ_of_le hsub.length_le

/-- Induction on children. -/
theorem induct {P : Query → Prop} (h : ∀ q : Query, (∀ c ∈ q.children, P c) → P q) (q : Query) : P q := by
  induction hn : q.queries.length using Nat.strong_induction_on generalizing q with
  | _ n ih => exact h q fun c hc => ih _ (hn ▸ length_queries_lt hc) c rfl

end Query

/-! ## Properties of all queries below -/

/-- `P` holds of the queries right below an expression. -/
def Expr.Below (P : Query → Prop) (e : Expr) : Prop := ∀ c ∈ e.children, P c

/-- `P` holds of the query that is nested in a table and of those in its join condition. -/
def Table.Below (P : Query → Prop) (t : Table) : Prop := ∀ c ∈ t.children, P c

/-- `P` holds of the queries right below a query. -/
def Query.Below (P : Query → Prop) (q : Query) : Prop := ∀ c ∈ q.children, P c

section Below

variable {P : Query → Prop}

namespace Expr

theorem children_unnamed : ∀ e : Expr, e.unnamed.children = e.children
  | .named _ inner => by rw [unnamed, children, children_unnamed inner]
  | .column .. | .star _ | .output .. | .constant .. | .parameter .. | .rowNumber _ | .cast .. | .binary ..
  | .not _ | .call .. | .exist _ => rfl

theorem children_stripCasts (e : Expr) : e.stripCasts.children = e.children := by
  induction e using stripCasts.induct with
  | case1 operand t h ih => rw [stripCasts, if_pos h, ih, children]
  | case2 operand t h => rw [stripCasts, if_neg h]
  | case3 e h => cases e <;> first | rfl | exact absurd rfl (h _ _)

@[simp] theorem below_unnamed (e : Expr) : e.unnamed.Below P ↔ e.Below P := by rw [Below, Below, children_unnamed]

@[simp] theorem below_stripCasts (e : Expr) : e.stripCasts.Below P ↔ e.Below P := by
  rw [Below, Below, children_stripCasts]

theorem below_congr {a b : Expr} (h : a.unnamed = b.unnamed) : a.Below P ↔ b.Below P := by
  rw [← below_unnamed, h, below_unnamed]

@[simp] theorem below_withName (name : String) (e : Expr) : (e.withName name).Below P ↔ e.Below P :=
  below_congr (withName_unnamed name e)

@[simp] theorem below_rowNumber (keys : List OrderKey) : (rowNumber keys).Below P ↔ ∀ k ∈ keys, k.expr.Below P := by
  simp only [Below, children, keyChildren_eq_flatMap, List.forall_mem_flatMap]

@[simp] theorem below_binary (op : BinaryOp) (a b : Expr) : (binary op a b).Below P ↔ a.Below P ∧ b.Below P := by
  simp only [Below, children, List.forall_mem_append]

/-- A column stands above no query. -/
theorem below_of_isColumn {e : Expr} (h : e.unnamed.isColumn = true) : e.Below P := by
  rw [← below_unnamed]
  generalize e.unnamed = u at h
  cases u with
  | column | output => exact fun _ hc => absurd hc List.not_mem_nil
  | _ => cases h

@[simp] theorem below_output (t name : String) (type : DataType) : (output t name type).Below P := below_of_isColumn rfl

@[simp] theorem below_constant (v : Literal) (type : DataType) : (constant v type).Below P :=
  fun _ hc => absurd hc List.not_mem_nil

end Expr

theorem Table.below_withUnjoined {c : Query} (hc : P c) : ∀ {t : Table}, t.Below P →
    (t.withUnjoined (.nested c)).Below P
  | .base .., _ | .nested _, _ => fun _ hx => by rw [List.mem_singleton.1 hx]; exact hc
  | .join _ target _, h => by
    rw [Below, children, List.forall_mem_append] at h
    rw [withUnjoined, Below, children, List.forall_mem_append]
    exact ⟨below_withUnjoined hc h.1, h.2⟩

/-- What holds of all queries of a tree holds of the root and of all those of the trees below it. -/
theorem Query.forall_mem_queries {q : Query} :
    (∀ x ∈ q.queries, P x) ↔ P q ∧ q.Below fun c => ∀ x ∈ c.queries, P x := by
  rw [queries_eq, List.forall_mem_cons, subqueries_eq_flatMap, List.forall_mem_flatMap]; rfl

theorem Expr.forall_mem_queries {e : Expr} : (∀ x ∈ e.queries, P x) ↔ e.Below fun c => ∀ x ∈ c.queries, P x := by
  rw [queries_eq_flatMap, List.forall_mem_flatMap]; rfl

/-- What is below a query part by part. -/
theorem Query.below_iff (q : Query) : q.Below P ↔
    (∀ t ∈ q.tables, t.Below P) ∧ (∀ e ∈ q.projection, e.Below P) ∧ (∀ e ∈ q.predicate, e.Below P) ∧
      (∀ k ∈ q.orderBy, k.expr.Below P) ∧ (∀ e ∈ q.limit, e.Below P) ∧ ∀ e ∈ q.offset, e.Below P := by
  simp only [Below, children, exprs, Table.Below, Expr.Below, List.forall_mem_append, List.forall_mem_flatMap,
    List.forall_mem_map, Option.mem_toList, and_assoc]
  exact Iff.rfl

end Below

/-! ## What a walk enters -/

section Walk

variable {x : Query}

mutual

theorem Expr.enter_mem_walk : ∀ (e : Expr) (events : List WalkEvent),
    .enter x ∈ e.walk (recorder none) events ↔ .enter x ∈ events ∨ x ∈ e.queries
  | .named _ inner, events => by
    rw [Expr.walk, if_neg (by simp [recorder]), Expr.enter_mem_walk inner, Expr.queries]; simp [recorder]
  | .rowNumber keys, events => by
    rw [Expr.walk, if_neg (by simp [recorder]), enter_mem_walkKeys keys, Expr.queries]; simp [recorder]
  | .cast operand _, events => by
    rw [Expr.walk, if_neg (by simp [recorder]), Expr.enter_mem_walk operand, Expr.queries]; simp [recorder]
  | .binary _ left right, events => by
    rw [Expr.walk, if_neg (by simp [recorder]), Expr.enter_mem_walk right, Expr.enter_mem_walk left, Expr.queries]
    simp [recorder, or_assoc]
  | .not operand, events => by
    rw [Expr.walk, if_neg (by simp [recorder]), Expr.enter_mem_walk operand, Expr.queries]; simp [recorder]
  | .call _ args _, events => by
    rw [Expr.walk, if_neg (by simp [recorder]), enter_mem_walkExprs args, Expr.queries]; simp [recorder]
  | .exist query, events => by
    rw [Expr.walk, if_neg (by simp [recorder]), Query.enter_mem_walk query, Expr.queries]; simp [recorder]
  | .column .., events | .star _, events | .output .., events | .constant .., events | .parameter .., events => by
    rw [Expr.walk, if_neg (by simp [recorder]), Expr.queries]; simp [recorder]

theorem Table.enter_mem_walk : ∀ (t : Table) (events : List WalkEvent),
    .enter x ∈ t.walk (recorder none) events ↔ .enter x ∈ events ∨ x ∈ t.queries
  | .base .., events => by rw [Table.walk, Table.queries]; simp
  | .join _ target condition, events => by
    rw [Table.walk, enter_mem_walkOption condition, Table.enter_mem_walk target, Table.queries]; simp [or_assoc]
  | .nested query, events => by rw [Table.walk, Query.enter_mem_walk query, Table.queries]

theorem Query.enter_mem_walk : ∀ (q : Query) (events : List WalkEvent),
    .enter x ∈ q.walk (recorder none) events ↔ .enter x ∈ events ∨ x ∈ q.queries
  | ⟨tables, projection, predicate, orderBy, limit, offset, _, _, _, _, _, _⟩, events => by
    rw [Query.walk, if_neg (by simp [recorder]), Query.queries]
    simp only [recorder, List.mem_append, List.mem_singleton, reduceCtorEq, or_false]
    rw [← recorder, enter_mem_walkOption offset, enter_mem_walkOption limit, enter_mem_walkKeys orderBy,
      enter_mem_walkOption predicate, enter_mem_walkTables tables, enter_mem_walkExprs projection]
    simp only [List.mem_append, List.mem_cons, WalkEvent.enter.injEq]
    tauto

theorem enter_mem_walkExprs : ∀ (es : List Expr) (events : List WalkEvent),
    .enter x ∈ walkExprs (recorder none) es events ↔ .enter x ∈ events ∨ x ∈ exprQueries es
  | [], events => by rw [walkExprs, exprQueries]; simp
  | e :: es, events => by
    rw [walkExprs, enter_mem_walkExprs es, Expr.enter_mem_walk e, exprQueries]; simp [or_assoc]

theorem enter_mem_walkOption : ∀ (e : Option Expr) (events : List WalkEvent),
    .enter x ∈ walkOption (recorder none) e events ↔ .enter x ∈ events ∨ x ∈ optionQueries e
  | none, events => by rw [walkOption, optionQueries]; simp
  | some e, events => by rw [walkOption, Expr.enter_mem_walk e, optionQueries]

theorem enter_mem_walkKeys : ∀ (keys : List OrderKey) (events : List WalkEvent),
    .enter x ∈ walkKeys (recorder none) keys events ↔ .enter x ∈ events ∨ x ∈ keyQueries keys
  | [], events => by rw [walkKeys, keyQueries]; simp
  | ⟨e, _⟩ :: keys, events => by
    rw [walkKeys, enter_mem_walkKeys keys, Expr.enter_mem_walk e, keyQueries]; simp [or_assoc]

theorem enter_mem_walkTables : ∀ (ts : List Table) (events : List WalkEvent),
    .enter x ∈ walkTables (recorder none) ts events ↔ .enter x ∈ events ∨ x ∈ tableQueries ts
  | [], events => by rw [walkTables, tableQueries]; simp
  | t :: ts, events => by
    rw [walkTables, enter_mem_walkTables ts, Table.enter_mem_walk t, tableQueries]; simp [or_assoc]

end

/-- A walk to the end enters the queries of a tree. -/
theorem Query.enter_mem_events (q : Query) : .enter x ∈ q.events none ↔ x ∈ q.queries := by
  rw [Query.events, Query.enter_mem_walk]; simp

end Walk

/-! ## A pass, level by level -/

section Levels

variable {m : Type → Type} [Monad m] (f : Query → m Query)

/-- Treats all queries below a query, and leaves the query itself for last. -/
def Query.mapBelowM (q : Query) : m Query := do
  return { q with
    tables := ← tablesMapQueriesM f q.tables
    projection := ← exprsMapQueriesM f q.projection
    predicate := ← optionMapQueriesM f q.predicate
    orderBy := ← keysMapQueriesM f q.orderBy
    limit := ← optionMapQueriesM f q.limit
    offset := ← optionMapQueriesM f q.offset }

variable [LawfulMonad m]

theorem Query.mapQueriesM_eq (q : Query) : q.mapQueriesM f = q.mapBelowM f >>= f := by
  cases q; rw [Query.mapQueriesM, Query.mapBelowM]; simp

mutual

theorem Expr.children_mapQueriesM : ∀ e : Expr,
    Expr.children <$> e.mapQueriesM f = e.children.mapM (Query.mapQueriesM f)
  | .named _ inner => by
    rw [Expr.mapQueriesM, Expr.children, ← Expr.children_mapQueriesM inner]; simp [Expr.children]
  | .rowNumber keys => by
    rw [Expr.mapQueriesM, Expr.children, ← children_keysMapQueriesM keys, map_bind]
    simp only [map_pure, Expr.children, bind_pure_comp]
  | .cast operand _ => by
    rw [Expr.mapQueriesM, Expr.children, ← Expr.children_mapQueriesM operand]; simp [Expr.children]
  | .binary _ left right => by
    rw [Expr.mapQueriesM, Expr.children, List.mapM_append, ← Expr.children_mapQueriesM left,
      ← Expr.children_mapQueriesM right]
    simp [Expr.children]
  | .not operand => by
    rw [Expr.mapQueriesM, Expr.children, ← Expr.children_mapQueriesM operand]; simp [Expr.children]
  | .call _ args _ => by
    rw [Expr.mapQueriesM, Expr.children, ← children_exprsMapQueriesM args, map_bind]
    simp only [map_pure, Expr.children, bind_pure_comp]
  | .exist query => by rw [Expr.mapQueriesM, Expr.children]; simp [Expr.children]
  | .column .. | .star _ | .output .. | .constant .. | .parameter .. => by
    rw [Expr.mapQueriesM, Expr.children]; simp [Expr.children]

theorem children_exprsMapQueriesM : ∀ es : List Expr,
    exprChildren <$> exprsMapQueriesM f es = (exprChildren es).mapM (Query.mapQueriesM f)
  | [] => by rw [exprsMapQueriesM, exprChildren]; simp
  | e :: es => by
    rw [exprsMapQueriesM, exprChildren, List.mapM_append, ← Expr.children_mapQueriesM e, ← children_exprsMapQueriesM es]
    simp [exprChildren]

theorem children_keysMapQueriesM : ∀ keys : List OrderKey,
    keyChildren <$> keysMapQueriesM f keys = (keyChildren keys).mapM (Query.mapQueriesM f)
  | [] => by rw [keysMapQueriesM, keyChildren]; simp
  | ⟨e, _⟩ :: keys => by
    rw [keysMapQueriesM, keyChildren, List.mapM_append, ← Expr.children_mapQueriesM e, ← children_keysMapQueriesM keys]
    simp [keyChildren]

end

theorem children_optionMapQueriesM (e : Option Expr) :
    (fun e => e.toList.flatMap Expr.children) <$> optionMapQueriesM f e =
      (e.toList.flatMap Expr.children).mapM (Query.mapQueriesM f) := by
  cases e with
  | none => rw [optionMapQueriesM]; simp
  | some e =>
    rw [optionMapQueriesM, Option.toList_some, List.flatMap_singleton, ← Expr.children_mapQueriesM]
    simp

theorem Table.children_mapQueriesM : ∀ t : Table,
    Table.children <$> t.mapQueriesM f = t.children.mapM (Query.mapQueriesM f)
  | .base .. => by rw [Table.mapQueriesM, Table.children]; simp [Table.children]
  | .join _ target condition => by
    rw [Table.mapQueriesM, Table.children, List.mapM_append, ← Table.children_mapQueriesM target,
      ← children_optionMapQueriesM]
    simp [Table.children]
  | .nested query => by rw [Table.mapQueriesM, Table.children]; simp [Table.children]

theorem children_tablesMapQueriesM (ts : List Table) : (·.flatMap Table.children) <$> tablesMapQueriesM f ts =
    (ts.flatMap Table.children).mapM (Query.mapQueriesM f) := by
  induction ts with
  | nil => rw [tablesMapQueriesM]; simp
  | cons t ts ih =>
    rw [tablesMapQueriesM, List.flatMap_cons, List.mapM_append, ← Table.children_mapQueriesM, ← ih]
    simp

/-- The children are treated one after the other. -/
theorem Query.children_mapBelowM (q : Query) :
    Query.children <$> q.mapBelowM f = q.children.mapM (Query.mapQueriesM f) := by
  have hexprs := children_exprsMapQueriesM f q.projection
  have hkeys := children_keysMapQueriesM f q.orderBy
  rw [funext exprChildren_eq_flatMap] at hexprs
  rw [funext keyChildren_eq_flatMap] at hkeys
  simp only [children, exprs, List.flatMap_append, List.mapM_append, List.flatMap_map, ← children_tablesMapQueriesM,
    ← hexprs, ← hkeys, ← children_optionMapQueriesM f q.predicate, ← children_optionMapQueriesM f q.limit,
    ← children_optionMapQueriesM f q.offset]
  rw [mapBelowM]
  simp [children, exprs, List.flatMap_append, List.flatMap_map]

end Levels

/-! ## A pass with a state -/

section State

variable {σ : Type} (f : Query → StateM σ Query) (ok : σ → Prop)

/-- `q'` is what the pass makes of `q`, from some state, if the state is `ok` afterwards. -/
def Query.Passed (q q' : Query) : Prop := ∃ s, (q.mapQueriesM f s).1 = q' ∧ ok (q.mapQueriesM f s).2

def Table.Passed (t t' : Table) : Prop := ∃ s, (t.mapQueriesM f s).1 = t' ∧ ok (t.mapQueriesM f s).2

def Expr.Passed (e e' : Expr) : Prop := ∃ s, (e.mapQueriesM f s).1 = e'

/-- `q'` is `q` once the pass has treated all queries below it. -/
structure Query.PassedBelow (q q' : Query) : Prop where
  same : q' = { q with
    tables := q'.tables
    projection := q'.projection
    predicate := q'.predicate
    orderBy := q'.orderBy
    limit := q'.limit
    offset := q'.offset }
  children : List.Forall₂ (Query.Passed f ok) q.children q'.children
  tables : List.Forall₂ (Table.Passed f ok) q.tables q'.tables
  projection : List.Forall₂ (Expr.Passed f) q.projection q'.projection
  predicate : List.Forall₂ (Expr.Passed f) q.predicate.toList q'.predicate.toList
  orderBy : List.Forall₂ (Expr.Passed f) (q.orderBy.map (·.expr)) (q'.orderBy.map (·.expr))
  limit : List.Forall₂ (Expr.Passed f) q.limit.toList q'.limit.toList
  offset : List.Forall₂ (Expr.Passed f) q.offset.toList q'.offset.toList

variable {f ok}

theorem forall₂_mapM {α β : Type} {g : α → StateM σ β} : ∀ {xs : List α},
    (∀ x ∈ xs, ∀ s, ok (g x s).2 → ok s) → ∀ s, ok (xs.mapM g s).2 →
      ok s ∧ List.Forall₂ (fun x y => ∃ s, (g x s).1 = y ∧ ok (g x s).2) xs (xs.mapM g s).1
  | [], _, s, h => ⟨h, .nil⟩
  | x :: xs, hback, s, h => by
    have hcons : (x :: xs).mapM g s =
        ((g x s).1 :: (xs.mapM g (g x s).2).1, (xs.mapM g (g x s).2).2) := by rw [List.mapM_cons]; rfl
    rw [hcons] at h ⊢
    obtain ⟨hx, hxs⟩ := forall₂_mapM (fun y hy => hback y (List.mem_cons_of_mem _ hy)) (g x s).2 h
    exact ⟨hback x (List.mem_cons_self ..) s hx, .cons ⟨s, rfl, hx⟩ hxs⟩

/-- A pass is over for good once a query has put an end to it. -/
theorem Query.ok_of_mapQueriesM (hback : ∀ q s, ok (f q s).2 → ok s) (q : Query) :
    ∀ s, ok (q.mapQueriesM f s).2 → ok s := by
  induction q using Query.induct with
  | h q ih =>
    intro s h
    rw [Query.mapQueriesM_eq] at h
    have hbelow : ok (q.mapBelowM f s).2 := hback _ _ h
    have hstate : (q.mapBelowM f s).2 = (q.children.mapM (Query.mapQueriesM f) s).2 :=
      congrArg Prod.snd (congrFun (Query.children_mapBelowM f q) s)
    exact (forall₂_mapM ih s (hstate ▸ hbelow)).1

section Back

variable (hback : ∀ q s, ok (f q s).2 → ok s)
include hback

/-- Whatever is treated by way of its children leaves what the pass makes of them. -/
theorem passed_of_children {α : Type} {x : StateM σ α} {children : α → List Query} {cs : List Query}
    (hx : children <$> x = cs.mapM (Query.mapQueriesM f)) (s : σ) (h : ok (x s).2) :
    ok s ∧ List.Forall₂ (Query.Passed f ok) cs (children (x s).1) := by
  have heq : (children (x s).1, (x s).2) = cs.mapM (Query.mapQueriesM f) s := congrFun hx s
  obtain ⟨hvalue, hstate⟩ : children (x s).1 = (cs.mapM (Query.mapQueriesM f) s).1 ∧
      (x s).2 = (cs.mapM (Query.mapQueriesM f) s).2 := Prod.ext_iff.1 heq
  rw [hvalue]
  exact forall₂_mapM (fun c _ => Query.ok_of_mapQueriesM hback c) s (hstate ▸ h)

theorem forall₂_tablesMapQueriesM (ts : List Table) (s : σ) (h : ok (tablesMapQueriesM f ts s).2) :
    ok s ∧ List.Forall₂ (Table.Passed f ok) ts (tablesMapQueriesM f ts s).1 := by
  rw [tablesMapQueriesM_eq_mapM] at h ⊢
  exact forall₂_mapM (fun t _ s ht => (passed_of_children hback (Table.children_mapQueriesM f t) s ht).1) s h

end Back

theorem forall₂_exprsMapQueriesM : ∀ (es : List Expr) (s : σ),
    List.Forall₂ (Expr.Passed f) es (exprsMapQueriesM f es s).1
  | [], _ => .nil
  | e :: es, s => .cons ⟨s, rfl⟩ (forall₂_exprsMapQueriesM es (e.mapQueriesM f s).2)

theorem forall₂_keysMapQueriesM : ∀ (keys : List OrderKey) (s : σ),
    List.Forall₂ (Expr.Passed f) (keys.map (·.expr)) ((keysMapQueriesM f keys s).1.map (·.expr))
  | [], _ => .nil
  | ⟨e, _⟩ :: keys, s => .cons ⟨s, rfl⟩ (forall₂_keysMapQueriesM keys (e.mapQueriesM f s).2)

theorem forall₂_optionMapQueriesM : ∀ (e : Option Expr) (s : σ),
    List.Forall₂ (Expr.Passed f) e.toList (optionMapQueriesM f e s).1.toList
  | none, _ => .nil
  | some _, s => .cons ⟨s, rfl⟩ .nil

/-- What a pass has made of a query when it has treated all queries below it. -/
theorem Query.mapBelowM_passed (hback : ∀ q s, ok (f q s).2 → ok s) {q : Query} {s : σ} (h : ok (q.mapBelowM f s).2) :
    Query.PassedBelow f ok q (q.mapBelowM f s).1 := by
  have hok {α : Type} {x : StateM σ α} {children : α → List Query} {cs : List Query}
      (hx : children <$> x = cs.mapM (Query.mapQueriesM f)) (s : σ) (h : ok (x s).2) : ok s :=
    (passed_of_children hback hx s h).1
  have htables : ok (tablesMapQueriesM f q.tables s).2 :=
    hok (children_exprsMapQueriesM f _) _ <| hok (children_optionMapQueriesM f _) _ <|
      hok (children_keysMapQueriesM f _) _ <| hok (children_optionMapQueriesM f _) _ <|
        hok (children_optionMapQueriesM f _) _ h
  exact {
    same := rfl
    children := (passed_of_children hback (Query.children_mapBelowM f q) s h).2
    tables := (forall₂_tablesMapQueriesM hback _ _ htables).2
    projection := forall₂_exprsMapQueriesM _ _
    predicate := forall₂_optionMapQueriesM _ _
    orderBy := forall₂_keysMapQueriesM _ _
    limit := forall₂_optionMapQueriesM _ _
    offset := forall₂_optionMapQueriesM _ _ }

/-- The queries below a query are treated first, then the query as they have left it. -/
theorem Query.mapQueriesM_passed (hback : ∀ q s, ok (f q s).2 → ok s) {q : Query} {s : σ}
    (h : ok (q.mapQueriesM f s).2) :
    ∃ q' s', q.mapQueriesM f s = f q' s' ∧ Query.PassedBelow f ok q q' := by
  rw [Query.mapQueriesM_eq] at h ⊢
  exact ⟨(q.mapBelowM f s).1, (q.mapBelowM f s).2, rfl, Query.mapBelowM_passed hback (hback _ _ h)⟩

/-! ## What a pass leaves of expressions and tables -/

namespace Expr.Passed

variable {e e' : Expr}

theorem outputName (h : Expr.Passed f e e') : e'.outputName = e.outputName := by
  obtain ⟨s, rfl⟩ := h; cases e <;> rfl

theorem isStar (h : Expr.Passed f e e') : e'.isStar = e.isStar := by
  obtain ⟨s, rfl⟩ := h; cases e <;> rfl

theorem isNamed (h : Expr.Passed f e e') : e'.isNamed = e.isNamed := by
  obtain ⟨s, rfl⟩ := h; cases e <;> rfl

theorem owner_mapQueriesM : ∀ (e : Expr) (s : σ), (e.mapQueriesM f s).1.unnamed.owner = e.unnamed.owner
  | .named _ inner, s => owner_mapQueriesM inner s
  | .column .., _ | .star _, _ | .output .., _ | .constant .., _ | .parameter .., _ | .rowNumber _, _ | .cast .., _
  | .binary .., _ | .not _, _ | .call .., _ | .exist _, _ => rfl

/-- The table of a column, if it is one. -/
theorem owner (h : Expr.Passed f e e') : e'.unnamed.owner = e.unnamed.owner := by
  obtain ⟨s, rfl⟩ := h; exact owner_mapQueriesM e s

theorem type_mapQueriesM : ∀ (e : Expr) (s : σ), (e.mapQueriesM f s).1.type = e.type
  | .named _ inner, s => type_mapQueriesM inner s
  | .binary op left right, s => by
    have hl := type_mapQueriesM left s
    have hr := type_mapQueriesM right (left.mapQueriesM f s).2
    change (binary op (left.mapQueriesM f s).1 (right.mapQueriesM f (left.mapQueriesM f s).2).1).type = _
    rw [Expr.type, Expr.type, hl, hr]
  | .column .., _ | .star _, _ | .output .., _ | .constant .., _ | .parameter .., _ | .rowNumber _, _ | .cast .., _
  | .not _, _ | .call .., _ | .exist _, _ => rfl

theorem type (h : Expr.Passed f e e') : e'.type = e.type := by
  obtain ⟨s, rfl⟩ := h; exact type_mapQueriesM e s

theorem numbersRows_mapQueriesM : ∀ (e : Expr) (s : σ), (e.mapQueriesM f s).1.numbersRows = e.numbersRows
  | .named _ inner, s => numbersRows_mapQueriesM inner s
  | .column .., _ | .star _, _ | .output .., _ | .constant .., _ | .parameter .., _ | .rowNumber _, _ | .cast .., _
  | .binary .., _ | .not _, _ | .call .., _ | .exist _, _ => rfl

theorem numbersRows (h : Expr.Passed f e e') : e'.numbersRows = e.numbersRows := by
  obtain ⟨s, rfl⟩ := h; exact numbersRows_mapQueriesM e s

end Expr.Passed

/-- The query nested in a table is treated, if there is one. -/
theorem Table.Passed.query? (hback : ∀ q s, ok (f q s).2 → ok s) : ∀ {t t' : Table}, Table.Passed f ok t t' →
    Option.Rel (Query.Passed f ok) t.query? t'.query?
  | .base .., _, ⟨_, rfl, _⟩ => .none
  | .join _ target condition, _, ⟨s, rfl, h⟩ => by
    have htarget : Table.Passed f ok target (target.mapQueriesM f s).1 :=
      ⟨s, rfl, (passed_of_children hback (children_optionMapQueriesM f condition) _ h).1⟩
    have hquery := Table.Passed.query? hback htarget
    exact hquery
  | .nested _, _, ⟨s, rfl, h⟩ => .some ⟨s, rfl, h⟩

theorem Table.name_mapQueriesM (hname : ∀ q s, (f q s).1.name = q.name) : ∀ (t : Table) (s : σ),
    (t.mapQueriesM f s).1.name = t.name
  | .base .., _ => rfl
  | .join _ target _, s => Table.name_mapQueriesM hname target s
  | .nested q, s => by
    show (q.mapQueriesM f s).1.name = q.name
    rw [Query.mapQueriesM_eq]
    exact hname (q.mapBelowM f s).1 (q.mapBelowM f s).2

theorem Table.Passed.name (hname : ∀ q s, (f q s).1.name = q.name) {t t' : Table} (h : Table.Passed f ok t t') :
    t'.name = t.name := by
  obtain ⟨s, rfl, -⟩ := h
  exact Table.name_mapQueriesM hname t s

theorem map_eq_of_forall₂ {α β : Type} {R : α → α → Prop} {g : α → β} (hg : ∀ a b, R a b → g b = g a) :
    ∀ {xs ys : List α}, List.Forall₂ R xs ys → ys.map g = xs.map g
  | _, _, .nil => rfl
  | _, _, .cons h hs => congrArg₂ List.cons (hg _ _ h) (map_eq_of_forall₂ hg hs)

/-- What is below a query has no part in whether its rows have to be numbered. -/
theorem Query.PassedBelow.needsNumbering {q q' : Query} (h : Query.PassedBelow f ok q q') :
    q'.needsNumbering = q.needsNumbering := by
  have hslots : q'.projection.map Expr.numbersRows = q.projection.map Expr.numbersRows :=
    map_eq_of_forall₂ (fun _ _ he => he.numbersRows) h.projection
  have hany (es : List Expr) : es.any Expr.numbersRows = (es.map Expr.numbersRows).any id := by simp
  have hoffset : q'.offset.isSome = q.offset.isSome := by
    have hlen : q.offset.toList.length = q'.offset.toList.length := h.offset.length_eq
    cases hq : q.offset <;> cases hq' : q'.offset <;> simp_all
  rw [Query.needsNumbering, Query.needsNumbering, hoffset, hany, hslots, ← hany]

end State

end QueryTree
