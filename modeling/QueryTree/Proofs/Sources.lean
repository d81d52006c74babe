/-
Query sources. A query lists the sources that its tables satisfy, tells of a source whether it is one
of them, and finds the table for it: two recursions through joins and nested queries that agree at
every depth. Push-down, expansion of the wildcard and the paging pass put tables below new queries,
but the sources stay what they were, and so does what can be bound.
-/
import QueryTree.Proofs.Everywhere
import QueryTree.Proofs.Failure
import QueryTree.Proofs.Rows.Sorting

namespace QueryTree

/-! ## Sources that are listed -/

theorem Query.sources_eq (q : Query) : q.sources = (q.tables.flatMap Table.sources).eraseDups := by
  cases q; rw [sources, tableSources_eq_flatMap]

theorem Query.sources_nodup (q : Query) : q.sources.Nodup := by
  rw [sources_eq]
  exact nodup_eraseDups _

/-- A query over one nested query lists what that does. -/
theorem Query.sources_of_nested {q c : Query} (h : q.tables = [.nested c]) : q.sources = c.sources := by
  rw [sources_eq, h, List.flatMap_singleton, Table.sources]
  exact eraseDups_of_nodup c.sources_nodup

section Serves

variable {s : Source}

mutual

theorem Table.mem_sources : ∀ {t : Table}, s ∈ t.sources ↔ t.serves s = true
  | .base _ _ _ source => by
    rw [Table.sources, Table.serves, Option.mem_toList, beq_iff_eq]
  | .join _ target _ => by
    rw [Table.sources, Table.serves]
    exact Table.mem_sources
  | .nested q => by
    rw [Table.sources, Table.serves]
    exact Query.mem_sources

theorem Query.mem_sources : ∀ {q : Query}, s ∈ q.sources ↔ q.serves s = true
  | ⟨tables, _, _, _, _, _, _, _, _, _, _, _⟩ => by
    rw [Query.sources, Query.serves, List.mem_eraseDups]
    exact mem_tableSources

theorem mem_tableSources : ∀ {ts : List Table}, s ∈ tableSources ts ↔ anyServes s ts = true
  | [] => by rw [tableSources, anyServes]; simp
  | t :: ts => by
    rw [tableSources, anyServes, List.mem_append, Bool.or_eq_true, Table.mem_sources, mem_tableSources]

end

/-- There is a table for a source if and only if the query answers for it. -/
theorem Query.serves_iff_tableServing {q : Query} : q.serves s = true ↔ ∃ t, q.tableServing s = .ok t := by
  rw [serves_eq_any, List.any_eq_true]
  constructor
  · rintro ⟨t, ht, hs⟩
    obtain ⟨u, hu⟩ := Option.isSome_iff_exists.1 (List.find?_isSome.2 ⟨t, ht, hs⟩)
    exact ⟨u, by rw [tableServing, hu]⟩
  · rintro ⟨t, ht⟩
    unfold tableServing at ht
    split at ht
    · rename_i u hu
      exact ⟨u, List.mem_of_find?_eq_some hu, List.find?_some hu⟩
    · cases ht

end Serves

/-! ## What stands in the way of a column -/

/-- Why an operation failed, if it did. -/
def errorOf {ε σ α : Type} : EStateM.Result ε σ α → Option ε
  | .ok _ _ => none
  | .error e _ => some e

@[simp] theorem errorOf_mapState {ε σ τ α : Type} (f : σ → τ) (r : EStateM.Result ε σ α) :
    errorOf (mapState f r) = errorOf r := by
  cases r <;> rfl

theorem errorOf_eq_none {ε σ α : Type} {r : EStateM.Result ε σ α} : errorOf r = none ↔ ∃ a s, r = .ok a s := by
  cases r <;> simp [errorOf]

mutual

/-- Why no column of source `s` can be bound in a table that satisfies it. -/
def Table.refusal (s : Source) : Table → Option Error
  | .base _ _ _ _ => none
  | .join _ target _ => target.refusal s
  | .nested q => if q.name.isSome then q.refusal s else some .unnamedQuery

/-- Why no column of source `s` can be bound in a query. -/
def Query.refusal (s : Source) : Query → Option Error
  | { tables, .. } => firstRefusal s tables

def firstRefusal (s : Source) : List Table → Option Error
  | [] => some (.unknownSource s)
  | t :: ts => if t.serves s then t.refusal s else firstRefusal s ts

end

section Bind

variable (threshold : Nat) (column : String) (type : DataType) (s : Source)

mutual

theorem Table.errorOf_bind : ∀ t : Table, errorOf (t.bind threshold column type s) = t.refusal s
  | .base .. => rfl
  | .join _ target _ => by
    rw [Table.bind, Table.refusal, errorOf_mapState]
    exact Table.errorOf_bind target
  | .nested q => by
    have hq := Query.errorOf_bind q
    rw [Table.bind, Table.refusal]
    rcases hname : q.name with _ | name
    · rfl
    · simp only [errorOf_mapState, Option.isSome_some, if_true]
      rw [← hq]
      rcases hb : q.bind threshold column type s with ⟨e, q'⟩ | ⟨err, q'⟩
      · -- Whatever was bound below is a column, and a column can always be shown.
        have hcolumn : e.unnamed.isColumn = true := (Query.grows_bind threshold column type s q).2 e q' hb
        exact errorOf_eq_none.2 (q'.expose_ok name hcolumn)
      · rfl

theorem Query.errorOf_bind : ∀ q : Query, errorOf (q.bind threshold column type s) = q.refusal s
  | ⟨tables, _, _, _, _, _, _, _, _, _, _, _⟩ => by
    rw [Query.bind, Query.refusal, ← errorOf_bindFirst tables]
    rcases bindFirst threshold column type s tables with ⟨bound, ts⟩ | ⟨err, ts⟩
    · rfl
    · rfl

theorem errorOf_bindFirst : ∀ ts : List Table, errorOf (bindFirst threshold column type s ts) = firstRefusal s ts
  | [] => rfl
  | t :: ts => by
    rw [bindFirst, firstRefusal]
    split
    · rw [errorOf_mapState, Table.errorOf_bind t]
    · rw [errorOf_mapState, errorOf_bindFirst ts]

end

end Bind

namespace Query

/-- A column of the source can be bound under the given name and type. -/
def Binds (settings : Settings) (column : String) (type : DataType) (s : Source) (q : Query) : Prop :=
  ∃ e r, resolveColumn settings column type s q = .ok e r

/-- Besides the empty name nothing but the tables decides whether a column can be bound. -/
theorem binds_iff {settings : Settings} {column : String} {type : DataType} {s : Source} {q : Query} :
    q.Binds settings column type s ↔ column.isEmpty = false ∧ q.refusal s = none := by
  rw [Binds, ← errorOf_eq_none, ← errorOf_bind settings.indexThreshold column type s q]
  unfold resolveColumn
  cases column.isEmpty with
  | true => simp [errorOf]
  | false => simp

theorem refusal_eq (s : Source) (q : Query) : q.refusal s = firstRefusal s q.tables := by
  cases q; rw [refusal]

end Query

/-- Where no table satisfies the source that is what stands in the way. -/
theorem serves_of_firstRefusal {s : Source} :
    ∀ {ts : List Table}, firstRefusal s ts = none → ∃ t ∈ ts, t.serves s = true
  | [], h => by cases h
  | t :: ts, h => by
    rw [firstRefusal] at h
    by_cases hs : t.serves s = true
    · exact ⟨t, List.mem_cons_self, hs⟩
    · rw [if_neg hs] at h
      obtain ⟨u, hu, hus⟩ := serves_of_firstRefusal h
      exact ⟨u, List.mem_cons_of_mem _ hu, hus⟩

namespace Query

theorem serves_of_refusal {s : Source} {q : Query} (h : q.refusal s = none) : q.serves s = true := by
  rw [refusal_eq] at h
  rw [serves_eq_any, List.any_eq_true]
  exact serves_of_firstRefusal h

/-- Over one nested query a column can be bound if it can be there, and there is a name to refer to it by. -/
theorem refusal_of_nested {s : Source} {q c : Query} (h : q.tables = [.nested c]) :
    q.refusal s = none ↔ c.name.isSome = true ∧ c.refusal s = none := by
  rw [refusal_eq, h, firstRefusal, Table.serves, Table.refusal, firstRefusal]
  constructor
  · intro hnone
    split at hnone
    · split at hnone
      · exact ⟨‹_›, hnone⟩
      · cases hnone
    · cases hnone
  · rintro ⟨hname, hc⟩
    rw [if_pos (serves_of_refusal hc), if_pos hname, hc]

/-! ## Queries that answer alike -/

/-- `r` lists the sources that `q` does, and what can be bound in `q` can be bound in `r`. -/
structure AnswersLike (q r : Query) : Prop where
  sources : r.sources = q.sources
  refusal : ∀ s, q.refusal s = none → r.refusal s = none

namespace AnswersLike

variable {q r r' : Query}

theorem refl (q : Query) : q.AnswersLike q := ⟨rfl, fun _ => id⟩

theorem trans (h : q.AnswersLike r) (h' : r.AnswersLike r') : q.AnswersLike r' :=
  ⟨h'.sources.trans h.sources, fun s => h'.refusal s ∘ h.refusal s⟩

theorem binds (h : q.AnswersLike r) {settings : Settings} {column : String} {type : DataType} {s : Source}
    (hq : q.Binds settings column type s) : r.Binds settings column type s := by
  rw [binds_iff] at hq ⊢
  exact ⟨hq.1, h.refusal s hq.2⟩

/-- Only the tables matter. -/
theorem of_tables (h : r.tables = q.tables) : q.AnswersLike r := by
  constructor
  · rw [sources_eq, sources_eq, h]
  · intro s hs
    rwa [refusal_eq, h, ← refusal_eq]

/-- The nested query answers like the one around it. -/
theorem child {c : Query} (h : q.tables = [.nested c]) : q.AnswersLike c :=
  ⟨(sources_of_nested h).symm, fun _ hs => ((refusal_of_nested h).1 hs).2⟩

/-- A query around one that answers alike, under the name of the nested query that there was. -/
theorem around {c c' : Query} (hr : r.tables = [.nested c]) (h : q.AnswersLike r) (hc : q.AnswersLike c')
    (hname : c'.name = c.name) (hr' : r'.tables = [.nested c']) : q.AnswersLike r' := by
  constructor
  · rw [sources_of_nested hr']
    exact hc.sources
  · intro s hs
    have hc₀ : c.name.isSome = true := ((refusal_of_nested hr).1 (h.refusal s hs)).1
    exact (refusal_of_nested hr').2 ⟨hname ▸ hc₀, hc.refusal s hs⟩

theorem pushedDown {t : String} {p : Query} (hp : r.pushedDown t = .ok p) : r.AnswersLike p := by
  obtain ⟨c, copies, added, hmoved⟩ := pushedDown_moved hp
  have hp : p.tables = [.nested c] := by rw [hmoved.parent]
  have hc : c.tables = r.tables ∧ c.name = some t := by rw [hmoved.child]; exact ⟨rfl, rfl⟩
  obtain ⟨hsources, hrefusal⟩ := of_tables hc.1
  constructor
  · rw [sources_of_nested hp]
    exact hsources
  · intro s hs
    exact (refusal_of_nested hp).2 ⟨by rw [hc.2]; rfl, hrefusal s hs⟩

end AnswersLike

/-- To answer like a given query is something that operations on drafts keep. -/
theorem answersLike_invariant (q : Query) : Invariant (AnswersLike q) fun _ => True where
  below _ _ _ _ _ := trivial
  child h hc := h.trans (.child hc)
  withChild h hc hc' hname := AnswersLike.around hc h hc' hname rfl
  pushedDown h hp := h.trans (.pushedDown hp)
  expandStarTo count r h := by
    obtain ⟨slots, keys, starred, heq⟩ := expandStarTo_eq count r
    exact h.trans (.of_tables (by rw [heq]))
  project {e} explicit r _ h := by
    obtain ⟨slots, keys, starred, heq⟩ := project_eq e explicit r
    exact h.trans (.of_tables (by rw [heq]))
  change h _ htables _ _ _ _ := h.trans (.of_tables htables)

end Query

/-! ## The paging pass -/

/-- `u` lists the sources that `t` does, under the same name, and what can be bound in `t` can be bound in `u`. -/
structure Table.AnswersLike (t u : Table) : Prop where
  sources : u.sources = t.sources
  refusal : ∀ s, t.refusal s = none → u.refusal s = none

theorem Table.AnswersLike.serves {t u : Table} (h : t.AnswersLike u) (s : Source) : u.serves s = t.serves s := by
  rw [Bool.eq_iff_iff, ← Table.mem_sources, ← Table.mem_sources, h.sources]

theorem Table.AnswersLike.nested {q r : Query} (h : q.AnswersLike r) (hname : r.name = q.name) :
    (Table.nested q).AnswersLike (.nested r) := by
  constructor
  · rw [Table.sources, Table.sources]
    exact h.sources
  · intro s hs
    rw [Table.refusal] at hs ⊢
    rw [hname]
    by_cases hq : q.name.isSome = true
    · rw [if_pos hq] at hs ⊢
      exact h.refusal s hs
    · rw [if_neg hq] at hs
      cases hs

theorem firstRefusal_of_forall₂ {s : Source} {ts us : List Table} (h : List.Forall₂ Table.AnswersLike ts us) :
    firstRefusal s ts = none → firstRefusal s us = none := by
  induction h with
  | nil => exact id
  | cons ht _ ih =>
    rw [firstRefusal, firstRefusal, ht.serves]
    split
    · exact ht.refusal s
    · exact ih

/-- What a query answers goes by its tables, one by one. -/
theorem Query.AnswersLike.of_forall₂ {q r : Query} (h : List.Forall₂ Table.AnswersLike q.tables r.tables) :
    q.AnswersLike r := by
  constructor
  · rw [sources_eq, sources_eq, List.flatMap_def, List.flatMap_def, map_eq_of_forall₂ (fun _ _ ht => ht.sources) h]
  · intro s
    rw [refusal_eq, refusal_eq]
    exact firstRefusal_of_forall₂ h

section Pass

variable {σ : Type} {step : Query → StateM σ Query}

theorem Query.AnswersLike.mapQueriesM (hstep : ∀ (q : Query) s, q.AnswersLike (step q s).1) {q : Query} {s : σ}
    (h : List.Forall₂ Table.AnswersLike q.tables (tablesMapQueriesM step q.tables s).1) :
    q.AnswersLike (q.mapQueriesM step s).1 := by
  have hbelow : q.AnswersLike (q.mapBelowM step s).1 := .of_forall₂ h
  rw [Query.mapQueriesM_eq]
  exact hbelow.trans (hstep (q.mapBelowM step s).1 (q.mapBelowM step s).2)

mutual

theorem Table.answersLike_mapQueriesM (hname : ∀ q s, (step q s).1.name = q.name)
    (hstep : ∀ (q : Query) s, q.AnswersLike (step q s).1) :
    ∀ (t : Table) (s : σ), t.AnswersLike (t.mapQueriesM step s).1
  | .base .., _ => ⟨rfl, fun _ => id⟩
  | .join _ target _, s => by
    obtain ⟨hsources, hrefusal⟩ := Table.answersLike_mapQueriesM hname hstep target s
    exact ⟨hsources, hrefusal⟩
  | .nested q, s => .nested (Query.answersLike_mapQueriesM hname hstep q s)
    (Table.name_mapQueriesM hname (.nested q) s)

theorem Query.answersLike_mapQueriesM (hname : ∀ q s, (step q s).1.name = q.name)
    (hstep : ∀ (q : Query) s, q.AnswersLike (step q s).1) :
    ∀ (q : Query) (s : σ), q.AnswersLike (q.mapQueriesM step s).1
  | ⟨tables, _, _, _, _, _, _, _, _, _, _, _⟩, s =>
    .mapQueriesM hstep (answersLike_tablesMapQueriesM hname hstep tables s)

theorem answersLike_tablesMapQueriesM (hname : ∀ q s, (step q s).1.name = q.name)
    (hstep : ∀ (q : Query) s, q.AnswersLike (step q s).1) :
    ∀ (ts : List Table) (s : σ), List.Forall₂ Table.AnswersLike ts (tablesMapQueriesM step ts s).1
  | [], _ => .nil
  | t :: ts, s => .cons (Table.answersLike_mapQueriesM hname hstep t s)
    (answersLike_tablesMapQueriesM hname hstep ts (t.mapQueriesM step s).2)

end

end Pass

theorem PagingPass.answersLike_step (q : Query) (p : PagingPass) : q.AnswersLike (step q p).1 := by
  rcases step_query q p with heq | heq
  · rw [heq]
    exact .refl q
  · rw [heq]
    exact (Edit.meets_replacePaging q.answersLike_invariant p.columnName ⟨q, p.session⟩ (.refl q)).1

namespace Query

theorem answersLike_replacePaging (dialect : Dialect) (named : Nat) (q : Query) (s : Session) :
    q.AnswersLike (dialect.replacePaging named q s).query := by
  unfold Dialect.replacePaging
  split
  · exact .refl q
  · exact answersLike_mapQueriesM (fun q p => step_name p q) PagingPass.answersLike_step q _

/-! ## Rewrites -/

/-- What a rewrite leaves of `q`, whether it succeeds or not. -/
inductive Rewritten (q : Query) : Query → Prop
  | pushDown (s : Session) : Rewritten q (stateOf (Edit.pushDown ⟨q, s⟩)).query
  | expandStar : Rewritten q (stateOf (expandStar q))
  | replacePaging (dialect : Dialect) (named : Nat) (s : Session) :
      Rewritten q (dialect.replacePaging named q s).query

theorem Rewritten.answersLike {q r : Query} (h : q.Rewritten r) : q.AnswersLike r := by
  have inv := q.answersLike_invariant
  cases h with
  | pushDown s => exact (Edit.meets_pushDown inv ⟨q, s⟩ (.refl q)).1
  | expandStar => exact inv.expandStarTo none (.refl q)
  | replacePaging dialect named s => exact answersLike_replacePaging dialect named q s

/-- A query answers for the sources that it lists, each of which it lists once, and has a table for
these alone. A rewrite leaves the list as it is, and what could be bound for a source can still be
bound for it. -/
theorem sources_answered (q : Query) :
    q.sources.Nodup ∧
    (∀ s, (q.serves s = true ↔ s ∈ q.sources) ∧ (s ∈ q.sources ↔ ∃ t, q.tableServing s = .ok t)) ∧
    ∀ r, q.Rewritten r → r.sources = q.sources ∧
      ∀ settings column type s, q.Binds settings column type s → r.Binds settings column type s := by
  refine ⟨q.sources_nodup, fun s => ?_, fun r hr => ?_⟩
  · constructor
    · exact mem_sources.symm
    · exact mem_sources.trans serves_iff_tableServing
  · have hlike := hr.answersLike
    exact ⟨hlike.sources, fun _ _ _ _ => hlike.binds⟩

theorem sources_answered_people :
    let people : Query := { tables := [.base "People" none "p" (some ⟨1⟩)] }
    let pushed : Query := (stateOf (Edit.pushDown ⟨people, {}⟩)).query
    people.Binds {} "Id" .int32 ⟨1⟩ ∧ pushed.sources = [⟨1⟩] ∧ pushed.Binds {} "Id" .int32 ⟨1⟩ := by
  intro people pushed
  obtain ⟨hsources, hbinds⟩ := (sources_answered people).2.2 pushed (.pushDown {})
  have hpeople : people.Binds {} "Id" .int32 ⟨1⟩ := ⟨.column "p" (some ⟨1⟩) "Id" .int32, people, rfl⟩
  exact ⟨hpeople, hsources.trans rfl, hbinds {} "Id" .int32 ⟨1⟩ hpeople⟩

end Query
end QueryTree
