/-
Binding against its reference, in which a memo is a plain list that is scanned for the first equal entry
and never indexed. Whatever is done to queries, copied, pushed down or read back from JSON in between,
both give the same answers and the same entries.
-/
import QueryTree.Json.Decode
import QueryTree.Proofs.Binding.Memo
import QueryTree.Proofs.Binding.References

namespace QueryTree

@[simp] theorem mapState_mapState {ε σ τ υ α : Type} (f : τ → υ) (g : σ → τ) (r : EStateM.Result ε σ α) :
    mapState f (mapState g r) = mapState (fun s => f (g s)) r := by
  cases r <;> rfl

/-! ## Trees without indexes -/

mutual

/-- The table with the index of every memo in its nested queries dropped. -/
def Table.unindexed : Table → Table
  | .base table schema name source => .base table schema name source
  | .join kind target condition => .join kind target.unindexed condition
  | .nested q => .nested q.unindexed

/-- The query with the index of its memo dropped, and of those in its nested queries. -/
def Query.unindexed : Query → Query
  | q@{ tables, .. } => { q with tables := tablesUnindexed tables, memo := { entries := q.memo.entries } }

def tablesUnindexed : List Table → List Table
  | [] => []
  | t :: ts => t.unindexed :: tablesUnindexed ts

end

@[simp] theorem tablesUnindexed_eq_map (ts : List Table) : tablesUnindexed ts = ts.map Table.unindexed := by
  induction ts <;> simp [tablesUnindexed, *]

theorem Query.unindexed_eq (q : Query) : q.unindexed =
    { q with tables := q.tables.map Table.unindexed, memo := { entries := q.memo.entries } } := by
  cases q; simp only [unindexed, tablesUnindexed_eq_map]

@[simp] theorem Query.unindexed_name (q : Query) : q.unindexed.name = q.name := by rw [unindexed_eq]

@[simp] theorem Table.unindexed_name : ∀ t : Table, t.unindexed.name = t.name
  | .nested q => by rw [unindexed]; exact q.unindexed_name
  | .join _ target _ => by rw [unindexed]; exact unindexed_name target
  | .base .. => rfl

mutual

@[simp] theorem Table.unindexed_serves (s : Source) : ∀ t : Table, t.unindexed.serves s = t.serves s
  | .base .. => rfl
  | .join _ target _ => by rw [Table.unindexed, Table.serves, Table.serves, Table.unindexed_serves s target]
  | .nested q => by rw [Table.unindexed, Table.serves, Table.serves, Query.unindexed_serves s q]

theorem Query.unindexed_serves (s : Source) : ∀ q : Query, q.unindexed.serves s = q.serves s
  | ⟨tables, _, _, _, _, _, _, _, _, _, _, _⟩ => by
    rw [Query.unindexed, Query.serves, Query.serves, anyServes_unindexed s tables]

theorem anyServes_unindexed (s : Source) : ∀ ts : List Table, anyServes s (tablesUnindexed ts) = anyServes s ts
  | [] => rfl
  | t :: ts => by rw [tablesUnindexed, anyServes, anyServes, Table.unindexed_serves s t, anyServes_unindexed s ts]

end

@[simp] theorem Query.unindexed_wildcardTable (q : Query) : q.unindexed.wildcardTable = q.wildcardTable := by
  rw [unindexed_eq]
  unfold wildcardTable
  rcases q.wildcardChoice with _ | name
  · rcases q.tables with _ | ⟨t, _ | ⟨u, ts⟩⟩ <;> simp
  · rfl

/-! ## Consistent trees -/

namespace Query

variable {q x : Query}

theorem query?_unindexed : ∀ {t : Table} {x : Query}, t.unindexed.query? = some x →
    ∃ y, t.query? = some y ∧ x = y.unindexed
  | .base .., _, h => by cases h
  | .join _ target _, _, h => by rw [Table.unindexed] at h; exact query?_unindexed (t := target) h
  | .nested q, _, h => by rw [Table.unindexed] at h; cases h; exact ⟨q, rfl, rfl⟩

theorem nested_unindexed {p : Query} (h : x.Nested p) : ∀ {q : Query}, p = q.unindexed →
    ∃ y : Query, x = y.unindexed := by
  induction h with
  | table ht hx =>
    rintro q rfl
    rw [unindexed_eq] at ht
    obtain ⟨t, -, rfl⟩ := List.mem_map.1 ht
    obtain ⟨y, -, hy⟩ := query?_unindexed hx
    exact ⟨y, hy⟩
  | deeper ht hc _ ih =>
    rintro q rfl
    rw [unindexed_eq] at ht
    obtain ⟨t, -, rfl⟩ := List.mem_map.1 ht
    obtain ⟨c, -, hc⟩ := query?_unindexed hc
    exact ih hc

theorem consistent_unindexed (q : Query) : q.unindexed.Consistent := by
  have hroot (p : Query) : p.unindexed.memo.Consistent := by
    rw [unindexed_eq]; exact StarMemo.consistent_of_entries _
  refine ⟨hroot q, fun x hx => ?_⟩
  obtain ⟨y, rfl⟩ := nested_unindexed hx rfl
  exact hroot y

end Query

/-! ## Binding with lists as memos -/

/-- What stands for a column where the memo is a list: through a wildcard the first equal entry, else the
slot that holds it, else the column itself. -/
def Query.standInByScan (bound : Expr) (q : Query) : Expr × Query :=
  if q.starred then
    let (e, entries) := StarMemo.scan bound q.memo.entries
    (e, { q with memo := { entries } })
  else ((q.projection.find? (·.equiv bound)).getD bound, q)

mutual

/-- Binds a column in a table that satisfies `source`. -/
def Table.bindByScan (column : String) (type : DataType) (source : Source) :
    Table → EStateM.Result Error Table Expr
  | t@(.base _ _ name own) => .ok (.column name own column type) t
  | .join kind target condition =>
    mapState (.join kind · condition) (target.bindByScan column type source)
  | t@(.nested q) =>
    match q.name with
    | none => .error .unnamedQuery t
    | some name =>
      mapState .nested <| match q.bindByScan column type source with
        | .ok e q => q.expose name e
        | .error err q => .error err q

/-- Binds a column in the first table of a query that satisfies `source`. -/
def Query.bindByScan (column : String) (type : DataType) (source : Source) :
    Query → EStateM.Result Error Query Expr
  | q@{ tables, .. } =>
    match bindFirstByScan column type source tables with
    | .error err tables => .error err { q with tables }
    | .ok bound tables =>
      let (e, q) := { q with tables }.standInByScan bound
      .ok e q

def bindFirstByScan (column : String) (type : DataType) (source : Source) :
    List Table → EStateM.Result Error (List Table) Expr
  | [] => .error (.unknownSource source) []
  | t :: ts =>
    if t.serves source then mapState (· :: ts) (t.bindByScan column type source)
    else mapState (t :: ·) (bindFirstByScan column type source ts)

end

/-- Binds a column of the table that satisfies `source`. -/
def Query.resolveByScan (column : String) (type : DataType) (source : Source) : EStateM Error Query Expr := fun q =>
  if column.isEmpty then .error .emptyColumnName q
  else q.bindByScan column type source

/-! ## The index changes nothing -/

namespace Query

/-- Slots have nothing to do with indexes. -/
theorem addSlot_unindexed (e : Expr) (q : Query) :
    q.unindexed.addSlot e = ((q.addSlot e).1, (q.addSlot e).2.unindexed) := by
  have hslot : q.unindexed.slotOf e.stripCasts = q.slotOf e.stripCasts := by rw [unindexed_eq]; rfl
  simp only [addSlot, project, Bool.false_eq_true, if_false, hslot]
  rcases q.slotOf e.stripCasts with _ | i
  · simp only [unindexed_eq]; rfl
  · simp only [unindexed_eq]

theorem expose_unindexed (name : String) (e : Expr) (q : Query) :
    q.unindexed.expose name e = mapState unindexed (q.expose name e) := by
  have hcovers : (q.unindexed.starred && q.unindexed.wildcardCovers e) = (q.starred && q.wildcardCovers e) := by
    unfold wildcardCovers
    rw [unindexed_wildcardTable, unindexed_eq]
  unfold expose
  rw [hcovers, addSlot_unindexed]
  by_cases h : (q.starred && q.wildcardCovers e) = true
  · simp only [if_pos h]
    cases e.lift name <;> rfl
  · simp only [if_neg h]
    cases (q.addSlot e).1.lift name <;> rfl

/-- A consistent memo gives what its entries give. -/
theorem standIn_unindexed (threshold : Nat) (bound : Expr) {q : Query} (h : q.memo.Consistent) :
    q.unindexed.standInByScan bound = ((q.standIn threshold bound).1, (q.standIn threshold bound).2.unindexed) := by
  unfold standIn standInByScan
  by_cases hs : q.starred = true
  · have hscan := (h.remember threshold bound).1
    simp only [unindexed_eq, hs, if_true, ← hscan]
  · simp only [unindexed_eq, hs, Bool.false_eq_true, if_false]

end Query

section Bind

variable (threshold : Nat) (column : String) (type : DataType) (source : Source)

theorem Query.bindByScan_eq (q : Query) : q.bindByScan column type source =
    match bindFirstByScan column type source q.tables with
    | .error err tables => .error err { q with tables }
    | .ok bound tables =>
      .ok ({ q with tables }.standInByScan bound).1 ({ q with tables }.standInByScan bound).2 := by
  cases q; unfold Query.bindByScan; rfl

/-- In a query binding goes by way of its tables. -/
theorem Query.bind_unindexed_of_tables {q : Query} (hq : q.memo.Consistent)
    (ht : bindFirstByScan column type source (q.tables.map Table.unindexed) =
      mapState (List.map Table.unindexed) (bindFirst threshold column type source q.tables)) :
    q.unindexed.bindByScan column type source = mapState Query.unindexed (q.bind threshold column type source) := by
  rw [Query.bindByScan_eq, Query.bind_eq]
  have htables : q.unindexed.tables = q.tables.map Table.unindexed := by rw [unindexed_eq]
  rw [htables, ht]
  rcases bindFirst threshold column type source q.tables with ⟨bound, tables⟩ | ⟨err, tables⟩
  · have hstand := standIn_unindexed threshold bound (q := { q with tables }) hq
    simp only [mapState, unindexed_eq] at hstand ⊢
    rw [hstand]
  · simp only [mapState, unindexed_eq]

mutual

theorem Table.bind_unindexed : ∀ t : Table, (∀ x, t.query? = some x → x.Consistent) →
    t.unindexed.bindByScan column type source = mapState Table.unindexed (t.bind threshold column type source)
  | .base .., _ => rfl
  | .join kind target condition, h => by
    rw [Table.unindexed, Table.bindByScan, Table.bind, Table.bind_unindexed target h, mapState_mapState,
      mapState_mapState]
    rfl
  | .nested q, h => by
    rw [Table.unindexed, Table.bindByScan, Table.bind, Query.unindexed_name]
    rcases q.name with _ | name
    · rfl
    · simp only [mapState_mapState]
      rw [Query.bind_unindexed q (h q rfl)]
      rcases q.bind threshold column type source with ⟨e, q'⟩ | ⟨err, q'⟩
      · simp only [mapState, Query.expose_unindexed]
        cases q'.expose name e <;> rfl
      · rfl

theorem Query.bind_unindexed : ∀ q : Query, q.Consistent →
    q.unindexed.bindByScan column type source = mapState Query.unindexed (q.bind threshold column type source)
  | ⟨tables, _, _, _, _, _, _, _, _, _, _, _⟩, h =>
    Query.bind_unindexed_of_tables threshold column type source h.1 <|
      bindFirst_unindexed tables fun _ ht _ hx => h.nested ht hx

theorem bindFirst_unindexed : ∀ ts : List Table, (∀ t ∈ ts, ∀ x, t.query? = some x → x.Consistent) →
    bindFirstByScan column type source (ts.map Table.unindexed) =
      mapState (List.map Table.unindexed) (bindFirst threshold column type source ts)
  | [], _ => rfl
  | t :: ts, h => by
    rw [List.map_cons, bindFirstByScan, bindFirst, Table.unindexed_serves]
    by_cases hs : t.serves source = true
    · rw [if_pos hs, if_pos hs, Table.bind_unindexed t (h t (List.mem_cons_self ..)), mapState_mapState,
        mapState_mapState]
      rfl
    · rw [if_neg hs, if_neg hs, bindFirst_unindexed ts fun t ht => h t (List.mem_cons_of_mem _ ht),
        mapState_mapState, mapState_mapState]
      rfl

end

end Bind

theorem Query.resolveColumn_unindexed (settings : Settings) (column : String) (type : DataType) (source : Source)
    {q : Query} (h : q.Consistent) : resolveByScan column type source q.unindexed =
      mapState unindexed (resolveColumn settings column type source q) := by
  unfold resolveByScan resolveColumn
  by_cases hc : column.isEmpty = true
  · rw [if_pos hc, if_pos hc]; rfl
  · rw [if_neg hc, if_neg hc, bind_unindexed _ column type source q h]

end QueryTree
