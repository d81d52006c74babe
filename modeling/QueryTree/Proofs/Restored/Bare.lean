/-
Trees without indexes. A bare tree has lost the index of every memo in it, those under EXISTS, in members
and in memos too. Equality, structural equality, static types, names and SQL text see no difference.
-/
import QueryTree.Proofs.Binding.Scan
import QueryTree.Proofs.Equality.Laws

namespace QueryTree

/-! ## Bare trees -/

mutual

def Expr.bare : Expr → Expr
  | .named name inner => .named name inner.bare
  | .rowNumber keys => .rowNumber (keysBare keys)
  | .cast operand type => .cast operand.bare type
  | .binary op left right => .binary op left.bare right.bare
  | .not operand => .not operand.bare
  | .call function args type => .call function (exprsBare args) type
  | .exist query => .exist query.bare
  | e => e

def OrderKey.bare : OrderKey → OrderKey
  | ⟨e, direction⟩ => ⟨e.bare, direction⟩

def Table.bare : Table → Table
  | .base table schema name source => .base table schema name source
  | .join kind target condition => .join kind target.bare (optionBare condition)
  | .nested query => .nested query.bare

/-- The query with the index of every memo dropped, in all parts of it. -/
def Query.bare : Query → Query
  | ⟨tables, projection, predicate, orderBy, limit, offset, distinct, name, starred, wildcardChoice,
      ⟨entries, _⟩, members⟩ =>
    { tables := tablesBare tables
      projection := exprsBare projection
      predicate := optionBare predicate
      orderBy := keysBare orderBy
      limit := optionBare limit
      offset := optionBare offset
      distinct
      name
      starred
      wildcardChoice
      memo := { entries := exprsBare entries }
      members := membersBare members }

def exprsBare : List Expr → List Expr
  | [] => []
  | e :: es => e.bare :: exprsBare es

def optionBare : Option Expr → Option Expr
  | none => none
  | some e => some e.bare

def keysBare : List OrderKey → List OrderKey
  | [] => []
  | k :: ks => k.bare :: keysBare ks

def tablesBare : List Table → List Table
  | [] => []
  | t :: ts => t.bare :: tablesBare ts

def membersBare : List (String × Expr) → List (String × Expr)
  | [] => []
  | (member, e) :: rest => (member, e.bare) :: membersBare rest

end

@[simp] theorem exprsBare_eq_map (es : List Expr) : exprsBare es = es.map Expr.bare := by
  induction es <;> simp [exprsBare, *]

@[simp] theorem optionBare_eq_map (e : Option Expr) : optionBare e = e.map Expr.bare := by
  cases e <;> rfl

@[simp] theorem keysBare_eq_map (keys : List OrderKey) : keysBare keys = keys.map OrderKey.bare := by
  induction keys <;> simp [keysBare, *]

@[simp] theorem tablesBare_eq_map (ts : List Table) : tablesBare ts = ts.map Table.bare := by
  induction ts <;> simp [tablesBare, *]

@[simp] theorem membersBare_eq_map (members : List (String × Expr)) :
    membersBare members = members.map fun (member, e) => (member, e.bare) := by
  induction members <;> simp [membersBare, *]

@[simp] theorem OrderKey.bare_expr (k : OrderKey) : k.bare.expr = k.expr.bare := by cases k; rfl

@[simp] theorem OrderKey.bare_direction (k : OrderKey) : k.bare.direction = k.direction := by cases k; rfl

theorem Query.bare_eq (q : Query) : q.bare = { q with
    tables := q.tables.map Table.bare
    projection := q.projection.map Expr.bare
    predicate := q.predicate.map Expr.bare
    orderBy := q.orderBy.map OrderKey.bare
    limit := q.limit.map Expr.bare
    offset := q.offset.map Expr.bare
    memo := { entries := q.memo.entries.map Expr.bare }
    members := q.members.map fun (member, e) => (member, e.bare) } := by
  rcases q with ⟨_, _, _, _, _, _, _, _, _, _, ⟨_, _⟩, _⟩
  simp only [bare, exprsBare_eq_map, optionBare_eq_map, keysBare_eq_map, tablesBare_eq_map, membersBare_eq_map]

section Fields

variable (q : Query)

@[simp] theorem Query.tables_bare : q.bare.tables = q.tables.map Table.bare := by rw [bare_eq]

@[simp] theorem Query.projection_bare : q.bare.projection = q.projection.map Expr.bare := by rw [bare_eq]

@[simp] theorem Query.orderBy_bare : q.bare.orderBy = q.orderBy.map OrderKey.bare := by rw [bare_eq]

@[simp] theorem Query.limit_bare : q.bare.limit = q.limit.map Expr.bare := by rw [bare_eq]

@[simp] theorem Query.offset_bare : q.bare.offset = q.offset.map Expr.bare := by rw [bare_eq]

@[simp] theorem Query.distinct_bare : q.bare.distinct = q.distinct := by rw [bare_eq]

@[simp] theorem Query.name_bare : q.bare.name = q.name := by rw [bare_eq]

@[simp] theorem Query.starred_bare : q.bare.starred = q.starred := by rw [bare_eq]

@[simp] theorem Query.memo_bare : q.bare.memo = { entries := q.memo.entries.map Expr.bare } := by rw [bare_eq]

@[simp] theorem Query.members_bare : q.bare.members = q.members.map fun (member, e) => (member, e.bare) := by
  rw [bare_eq]

end Fields

mutual

@[simp] theorem Expr.bare_bare : ∀ e : Expr, e.bare.bare = e.bare
  | .named _ inner => by rw [Expr.bare, Expr.bare, Expr.bare_bare inner]
  | .rowNumber keys => by rw [Expr.bare, Expr.bare, keysBare_keysBare keys]
  | .cast operand _ => by rw [Expr.bare, Expr.bare, Expr.bare_bare operand]
  | .binary _ left right => by rw [Expr.bare, Expr.bare, Expr.bare_bare left, Expr.bare_bare right]
  | .not operand => by rw [Expr.bare, Expr.bare, Expr.bare_bare operand]
  | .call _ args _ => by rw [Expr.bare, Expr.bare, exprsBare_exprsBare args]
  | .exist query => by rw [Expr.bare, Expr.bare, Query.bare_bare query]
  | .column .. | .star _ | .output .. | .constant .. | .parameter .. => rfl

theorem Table.bare_bare : ∀ t : Table, t.bare.bare = t.bare
  | .base .. => rfl
  | .join _ target condition => by
    rw [Table.bare, Table.bare, Table.bare_bare target, optionBare_optionBare condition]
  | .nested query => by rw [Table.bare, Table.bare, Query.bare_bare query]

@[simp] theorem Query.bare_bare : ∀ q : Query, q.bare.bare = q.bare
  | ⟨tables, projection, predicate, orderBy, limit, offset, _, _, _, _, ⟨entries, _⟩, members⟩ => by
    rw [Query.bare, Query.bare, tablesBare_tablesBare tables, exprsBare_exprsBare projection,
      optionBare_optionBare predicate, keysBare_keysBare orderBy, optionBare_optionBare limit,
      optionBare_optionBare offset, exprsBare_exprsBare entries, membersBare_membersBare members]

theorem exprsBare_exprsBare : ∀ es : List Expr, exprsBare (exprsBare es) = exprsBare es
  | [] => rfl
  | e :: es => by rw [exprsBare, exprsBare, Expr.bare_bare e, exprsBare_exprsBare es]

theorem optionBare_optionBare : ∀ e : Option Expr, optionBare (optionBare e) = optionBare e
  | none => rfl
  | some e => by rw [optionBare, optionBare, Expr.bare_bare e]

theorem keysBare_keysBare : ∀ keys : List OrderKey, keysBare (keysBare keys) = keysBare keys
  | [] => rfl
  | ⟨e, _⟩ :: keys => by
    rw [keysBare, keysBare, OrderKey.bare, OrderKey.bare, Expr.bare_bare e, keysBare_keysBare keys]

theorem tablesBare_tablesBare : ∀ ts : List Table, tablesBare (tablesBare ts) = tablesBare ts
  | [] => rfl
  | t :: ts => by rw [tablesBare, tablesBare, Table.bare_bare t, tablesBare_tablesBare ts]

theorem membersBare_membersBare :
    ∀ members : List (String × Expr), membersBare (membersBare members) = membersBare members
  | [] => rfl
  | (_, e) :: rest => by rw [membersBare, membersBare, Expr.bare_bare e, membersBare_membersBare rest]

end

mutual

theorem Table.bare_unindexed : ∀ t : Table, t.unindexed.bare = t.bare
  | .base .. => rfl
  | .join _ target condition => by rw [Table.unindexed, Table.bare, Table.bare, Table.bare_unindexed target]
  | .nested query => by rw [Table.unindexed, Table.bare, Table.bare, Query.bare_unindexed query]

theorem Query.bare_unindexed : ∀ q : Query, q.unindexed.bare = q.bare
  | ⟨tables, _, _, _, _, _, _, _, _, _, ⟨_, _⟩, _⟩ => by
    rw [Query.unindexed, Query.bare, Query.bare, tablesBare_unindexed tables]

theorem tablesBare_unindexed : ∀ ts : List Table, tablesBare (tablesUnindexed ts) = tablesBare ts
  | [] => rfl
  | t :: ts => by rw [tablesUnindexed, tablesBare, tablesBare, Table.bare_unindexed t, tablesBare_unindexed ts]

end

/-! ## Parts of bare trees -/

namespace Expr

variable {L : Literal → Literal → Prop} {R : Query → Query → Prop}

theorem operands_bare (e : Expr) : e.bare.operands = e.operands.map bare := by
  cases e <;> simp [bare, operands]

theorem children_bare (e : Expr) : e.bare.children = e.children.map Query.bare := by
  induction e using induct with
  | h e ih =>
    rcases children_eq e with ⟨q, rfl⟩ | he
    · simp [bare, children]
    · rcases children_eq e.bare with ⟨q, hq⟩ | hbare
      · cases e with
        | exist q => simp [bare, children]
        | _ => simp [bare] at hq
      · rw [hbare, he, operands_bare, List.map_flatMap, List.flatMap_map]
        exact List.flatMap_congr ih

theorem sameHead_bare {a b : Expr} :
    a.bare.SameHead L R b.bare ↔ a.SameHead L (fun q r => R q.bare r.bare) b := by
  cases a <;> cases b <;> simp [bare, SameHead, Function.comp_def]

/-- Bare expressions are compared as those that they come from, with bare queries under EXISTS. -/
theorem same_bare (a : Expr) : ∀ b : Expr,
    a.bare.Same L R b.bare ↔ a.Same L (fun q r => R q.bare r.bare) b := by
  induction a using induct with
  | h a ih =>
    intro b
    rw [same_iff, same_iff, sameHead_bare, operands_bare, operands_bare, List.forall₂_map_left_iff,
      List.forall₂_map_right_iff, forall₂_congr_of_mem ih]

end Expr

theorem Table.children_bare : ∀ t : Table, t.bare.children = t.children.map Query.bare
  | .base .. => rfl
  | .join _ target condition => by
    rw [bare, children, children, children_bare target, List.map_append, optionBare_eq_map]
    cases condition <;> simp [Expr.children_bare]
  | .nested q => by simp [bare, children]

/-! ## Lists of bare parts -/

section Lists

variable {α β : Type} {R : α → α → Prop} {S : β → β → Prop} {f : α → β}

theorem forall₂_map_map {as bs : List α} (h : ∀ a ∈ as, ∀ b, S (f a) (f b) ↔ R a b) :
    List.Forall₂ S (as.map f) (bs.map f) ↔ List.Forall₂ R as bs := by
  rw [List.forall₂_map_left_iff, List.forall₂_map_right_iff]
  exact forall₂_congr_of_mem h

theorem lookup_mapValues (f : α → β) (key : String) : ∀ entries : List (String × α),
    (entries.map fun (k, a) => (k, f a)).lookup key = (entries.lookup key).map f
  | [] => rfl
  | (k, a) :: rest => by
    rw [List.map_cons, List.lookup_cons, List.lookup_cons, lookup_mapValues f key rest]
    cases key == k <;> rfl

end Lists

/-! ## Equality -/

theorem Expr.beq_bare {a : Expr} (h : a.Below fun c => ∀ r, c.bare.beq r.bare = c.beq r) (b : Expr) :
    a.bare.beq b.bare = a.beq b := by
  rw [Bool.eq_iff_iff, beq_iff, beq_iff, same_bare]
  constructor
  · exact Same.mono (fun _ _ h => h) a (fun q hq r hr => h q hq r ▸ hr) b
  · exact Same.mono (fun _ _ h => h) a (fun q hq r hr => (h q hq r).symm ▸ hr) b

theorem Table.beq_bare : ∀ {t : Table}, (t.Below fun c => ∀ r, c.bare.beq r.bare = c.beq r) →
    ∀ u : Table, t.bare.beq u.bare = t.beq u
  | .base .., _, u => by cases u <;> simp [bare, beq]
  | .join _ target condition, hbelow, u => by
    obtain ⟨htarget, hcondition⟩ := List.forall_mem_append.1 hbelow
    cases u with
    | join _ target' condition' =>
      have hoption :
          optionBeq (condition.map Expr.bare) (condition'.map Expr.bare) = optionBeq condition condition' := by
        rw [Bool.eq_iff_iff, optionBeq_iff, optionBeq_iff, Option.toList_map, Option.toList_map]
        refine forall₂_map_map fun e he f => ?_
        rw [Expr.beq_bare fun c hc => hcondition c (List.mem_flatMap_of_mem he hc)]
      rw [bare, bare, beq, beq, beq_bare htarget, optionBare_eq_map, optionBare_eq_map, hoption]
    | _ => simp [bare, beq]
  | .nested q, hbelow, u => by
    cases u with
    | nested r =>
      rw [bare, bare, beq, beq]
      exact hbelow q (List.mem_singleton_self q) r
    | _ => simp [bare, beq]

namespace Query

theorem clauses_bare (q : Query) : q.bare.clauses = q.clauses.map (List.map Expr.bare) := by
  rw [bare_eq]
  simp only [clauses, List.map_cons, List.map_nil, List.map_map, Option.toList_map, Function.comp_def,
    OrderKey.bare_expr]

/-- Equality does not look at indexes. -/
theorem beq_bare (q : Query) : ∀ r : Query, q.bare.beq r.bare = q.beq r := by
  induction q using induct_parts with
  | h q ih =>
    intro r
    obtain ⟨htables, hclauses, hmembers⟩ := forall_parts_iff.1 ih
    have hiff : q.bare.PartsEqual r.bare ↔ q.PartsEqual r := by
      rw [partsEqual_iff, partsEqual_iff, clauses_bare, clauses_bare]
      refine and_congr ?_ (and_congr ?_ (and_congr ?_ (and_congr ?_ (and_congr ?_ ?_))))
      · rw [bare_eq, bare_eq]
        exact forall₂_map_map fun t ht u => by rw [Table.beq_bare (htables t ht)]
      · refine forall₂_map_map fun es hes fs => forall₂_map_map fun e he f => ?_
        rw [Expr.beq_bare (hclauses es hes e he)]
      · rw [bare_eq, bare_eq]
        simp [Function.comp_def]
      · rw [bare_eq, bare_eq]
      · rw [bare_eq, bare_eq, List.length_map, List.length_map]
      · rw [bare_eq, bare_eq, MembersEqual, MembersEqual, List.forall_mem_map]
        refine forall₂_congr fun m hm => ?_
        rw [lookup_mapValues]
        cases r.members.lookup m.1 with
        | none => simp
        | some e => simp [Expr.beq_bare (hmembers m hm)]
    rw [Bool.eq_iff_iff, beq_iff, beq_iff, hiff]

/-- A query equals its bare form wherever it equals itself. -/
theorem beq_bare_self (q : Query) : q.beq q.bare = q.beq q := by rw [← beq_bare, bare_bare, beq_bare]

end Query

/-! ## Structural equality -/

namespace Expr

theorem erased_bare (e : Expr) : e.bare.erased = e.erased.bare := by
  induction e using induct with
  | h e ih =>
    cases e with
    | named name inner => exact ih inner (List.mem_singleton_self _)
    | rowNumber keys =>
      simp only [operands, List.forall_mem_map] at ih
      simp only [bare, erased, keysErased_eq_map, keysBare_eq_map, List.map_map]
      refine congrArg rowNumber (List.map_congr_left fun k hk => ?_)
      simp [OrderKey.bare, ih k hk]
    | call function args type =>
      simp only [bare, erased, exprsErased_eq_map, exprsBare_eq_map, List.map_map]
      exact congrArg (call function · type) (List.map_congr_left ih)
    | binary op left right =>
      simp only [operands, List.forall_mem_cons] at ih
      simp only [bare, erased, ih.1, ih.2.1]
    | cast operand type => simp only [bare, erased, ih operand (List.mem_singleton_self _)]
    | not operand => simp only [bare, erased, ih operand (List.mem_singleton_self _)]
    | column | star | output | constant | parameter | exist => rfl

/-- Structural equality does not look at indexes. -/
@[simp] theorem equiv_bare (a b : Expr) : a.bare.equiv b.bare = a.equiv b := by
  have hqueries (q r : Query) : ((q.bare == r.bare) = true) = ((q == r) = true) := by
    rw [show (q.bare == r.bare) = q.bare.beq r.bare from rfl, Query.beq_bare]
    rfl
  rw [Bool.eq_iff_iff, equiv_iff, equiv_iff, SameErased, SameErased, erased_bare, erased_bare, same_bare]
  simp only [hqueries]

/-! ## Names, types and shapes -/

@[simp] theorem unnamed_bare : ∀ e : Expr, e.bare.unnamed = e.unnamed.bare
  | .named _ inner => by rw [bare, unnamed, unnamed, unnamed_bare inner]
  | .column .. | .star _ | .output .. | .constant .. | .parameter .. | .rowNumber _ | .cast .. | .binary ..
  | .not _ | .call .. | .exist _ => rfl

@[simp] theorem withName_bare (name : String) (e : Expr) : e.bare.withName name = (e.withName name).bare := by
  rw [withName, withName, bare, unnamed_bare]

@[simp] theorem outputName_bare (e : Expr) : e.bare.outputName = e.outputName := by cases e <;> rfl

@[simp] theorem isNamed_bare (e : Expr) : e.bare.isNamed = e.isNamed := by cases e <;> rfl

@[simp] theorem isStar_bare (e : Expr) : e.bare.isStar = e.isStar := by cases e <;> rfl

@[simp] theorem isColumn_bare (e : Expr) : e.bare.isColumn = e.isColumn := by cases e <;> rfl

@[simp] theorem owner_bare (e : Expr) : e.bare.owner = e.owner := by cases e <;> rfl

@[simp] theorem integer?_bare (e : Expr) : e.bare.integer? = e.integer? := by cases e <;> rfl

@[simp] theorem numbersRows_bare (e : Expr) : e.bare.numbersRows = e.numbersRows := by
  rw [numbersRows, numbersRows, unnamed_bare]
  cases e.unnamed <;> rfl

@[simp] theorem type_bare : ∀ e : Expr, e.bare.type = e.type
  | .named _ inner => by rw [bare, type, type, type_bare inner]
  | .binary _ left right => by rw [bare, type, type, type_bare left, type_bare right]
  | .column .. | .star _ | .output .. | .constant .. | .parameter .. | .rowNumber _ | .cast .. | .not _ | .call ..
  | .exist _ => rfl

@[simp] theorem stripCasts_bare : ∀ e : Expr, e.bare.stripCasts = e.stripCasts.bare
  | .cast operand t => by
    rw [bare, stripCasts, stripCasts, type_bare, stripCasts_bare operand]
    split <;> rfl
  | .named .. | .column .. | .star _ | .output .. | .constant .. | .parameter .. | .rowNumber _ | .binary ..
  | .not _ | .call .. | .exist _ => rfl

end Expr

@[simp] theorem Table.name_bare : ∀ t : Table, t.bare.name = t.name
  | .base .. => rfl
  | .join _ target _ => by rw [bare, name, name, name_bare target]
  | .nested q => by rw [bare, name, name, Query.name_bare]

theorem Table.query?_bare : ∀ t : Table, t.bare.query? = t.query?.map Query.bare
  | .base .. => rfl
  | .join _ target _ => by rw [bare]; exact query?_bare target
  | .nested _ => by rw [bare]; rfl

@[simp] theorem Query.wildcardTable_bare (q : Query) : q.bare.wildcardTable = q.wildcardTable := by
  rw [bare_eq]
  unfold wildcardTable
  rcases q.wildcardChoice with _ | name
  · rcases q.tables with _ | ⟨t, _ | ⟨u, ts⟩⟩ <;> simp
  · rfl

/-! ## Text -/

theorem Query.toSql_eq (q : Query) : q.toSql =
    let columns := (if q.starred then [q.wildcardTable.elim "*" (· ++ ".*")] else []) ++ exprsSql q.projection
    "SELECT " ++ (if q.distinct then "DISTINCT " else "") ++ commaSeparated (if columns.isEmpty then ["*"] else columns)
      ++ fromSql q.tables ++ clause "WHERE" (optionSql q.predicate)
      ++ clause "ORDER BY" (if q.orderBy.isEmpty then none else some (commaSeparated (keysSql q.orderBy)))
      ++ clause "LIMIT" (optionSql q.limit) ++ clause "OFFSET" (optionSql q.offset) := by
  rcases hq : q with ⟨tables, projection, predicate, orderBy, limit, offset, distinct, name, starred, choice, memo,
    members⟩
  rw [Query.toSql, ← hq]
  cases q.wildcardTable with
  | none | some =>
    subst hq
    rfl

mutual

@[simp] theorem Expr.toSql_bare : ∀ e : Expr, e.bare.toSql = e.toSql
  | .named name inner => congrArg (· ++ " AS " ++ name) (Expr.toSql_bare inner)
  | .rowNumber keys =>
    congrArg (fun texts => "ROW_NUMBER() OVER(ORDER BY " ++ commaSeparated texts ++ ")") (keysSql_bare keys)
  | .cast operand type => congrArg ("CAST(" ++ · ++ " AS " ++ type.toText ++ ")") (Expr.toSql_bare operand)
  | .binary op left right =>
    congrArg₂ ("(" ++ · ++ " " ++ op.sql ++ " " ++ · ++ ")") (Expr.toSql_bare left) (Expr.toSql_bare right)
  | .not operand => congrArg ("NOT (" ++ · ++ ")") (Expr.toSql_bare operand)
  | .call function args _ => congrArg (fun texts => function ++ "(" ++ commaSeparated texts ++ ")") (exprsSql_bare args)
  | .exist query => congrArg ("EXISTS (" ++ · ++ ")") (Query.toSql_bare query)
  | .column .. | .star _ | .output .. | .constant .. | .parameter .. => rfl

theorem OrderKey.toSql_bare : ∀ k : OrderKey, k.bare.toSql = k.toSql
  | ⟨e, direction⟩ => by
    have he : e.bare.toSql ++ " " ++ direction.sql = e.toSql ++ " " ++ direction.sql := by rw [Expr.toSql_bare e]
    cases e with
    | named => rfl
    | _ => exact he

theorem Table.toSql_bare : ∀ t : Table, t.bare.toSql = t.toSql
  | .base .. => rfl
  | .join kind target condition =>
    congrArg₂ (fun table condition => kind.sql ++ " " ++ table ++ clause "ON" condition) (Table.toSql_bare target)
      (optionSql_bare condition)
  | .nested query =>
    congrArg₂ (fun text name => "(" ++ text ++ ") AS " ++ Option.getD name "?") (Query.toSql_bare query)
      (Query.name_bare query)

theorem Query.toSql_bare : ∀ q : Query, q.bare.toSql = q.toSql
  | ⟨tables, projection, predicate, orderBy, limit, offset, distinct, name, starred, wildcardChoice,
      ⟨entries, index⟩, members⟩ => by
    have hkeys : (keysBare orderBy).isEmpty = orderBy.isEmpty := by rw [keysBare_eq_map, List.isEmpty_map]
    rw [Query.toSql_eq, Query.toSql_eq, Query.wildcardTable_bare, Query.bare]
    rw [exprsSql_bare projection, fromSql_bare tables, optionSql_bare predicate, hkeys, keysSql_bare orderBy,
      optionSql_bare limit, optionSql_bare offset]

theorem exprsSql_bare : ∀ es : List Expr, exprsSql (exprsBare es) = exprsSql es
  | [] => rfl
  | e :: es => by rw [exprsBare, exprsSql, exprsSql, Expr.toSql_bare e, exprsSql_bare es]

theorem optionSql_bare : ∀ e : Option Expr, optionSql (optionBare e) = optionSql e
  | none => rfl
  | some e => by rw [optionBare, optionSql, optionSql, Expr.toSql_bare e]

theorem keysSql_bare : ∀ keys : List OrderKey, keysSql (keysBare keys) = keysSql keys
  | [] => rfl
  | k :: keys => by rw [keysBare, keysSql, keysSql, OrderKey.toSql_bare k, keysSql_bare keys]

theorem fromSql_bare : ∀ ts : List Table, fromSql (tablesBare ts) = fromSql ts
  | [] => rfl
  | t :: ts => by rw [tablesBare, fromSql, fromSql, Table.toSql_bare t, furtherSql_bare ts]

theorem furtherSql_bare : ∀ ts : List Table, furtherSql (tablesBare ts) = furtherSql ts
  | [] => rfl
  | t :: ts => by
    have hjoin : t.bare.isJoin = t.isJoin := by cases t <;> rfl
    rw [tablesBare, furtherSql, furtherSql, Table.toSql_bare t, furtherSql_bare ts, hjoin]

end

@[simp] theorem Expr.lift_bare (name : String) (e : Expr) : e.bare.lift name = (e.lift name).map Expr.bare := by
  unfold lift lift?
  rw [outputName_bare, type_bare, toSql_bare]
  cases e.outputName <;> rfl

end QueryTree
