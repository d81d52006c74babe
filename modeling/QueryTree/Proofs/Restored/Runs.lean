/-
Runs over a query that is read back from JSON. It has lost the indexes of its memos, and no run of
operations, on it or further down in the queries that it is pushed down into, can tell it from the query
that was written: the answers are the same, and so are the trees but for their indexes.
-/
import QueryTree.Proofs.Binding.History
import QueryTree.Proofs.Restored.Edits
import QueryTree.Proofs.Restored.RoundTrip

namespace QueryTree

/-! ## Consistent memos -/

namespace Query

variable {q r : Query}

theorem consistent_iff : q.Consistent ↔ q.memo.Consistent ∧ ∀ t ∈ q.tables, ∀ c, t.query? = some c → c.Consistent := by
  constructor
  · intro h
    exact ⟨h.1, fun t ht c hc => h.nested ht hc⟩
  · rintro ⟨hmemo, htables⟩
    refine ⟨hmemo, fun x hx => ?_⟩
    cases hx with
    | table ht hx => exact (htables _ ht x hx).1
    | deeper ht hc hx => exact (htables _ ht _ hc).2 x hx

/-- Only the memo and the tables have a part in it. -/
theorem Consistent.congr (h : q.Consistent) (hmemo : r.memo = q.memo) (htables : r.tables ⊆ q.tables) :
    r.Consistent :=
  ⟨hmemo ▸ h.1, fun _ hx => h.2 _ (hx.of_tables htables)⟩

theorem Consistent.appendTable (h : q.Consistent) {t : Table} (ht : ∀ c, t.query? = some c → c.Consistent) :
    (q.appendTable t).Consistent := by
  obtain ⟨hmemo, htables⟩ := consistent_iff.1 h
  refine consistent_iff.2 ⟨hmemo, fun u hu => ?_⟩
  rcases List.mem_append.1 hu with hu | hu
  · exact htables u hu
  · rw [List.mem_singleton.1 hu]
    exact ht

theorem Consistent.replaceNested (h : q.Consistent) {c : Query} (hc : c.Consistent) :
    ({ q with tables := [.nested c] } : Query).Consistent := by
  refine consistent_iff.2 ⟨h.1, fun t ht x hx => ?_⟩
  rw [List.mem_singleton.1 ht] at hx
  cases hx
  exact hc

theorem consistent_invariant : Invariant Consistent fun _ => True where
  below _ _ _ _ _ := trivial
  child h ht := h.nested (t := .nested _) (ht ▸ List.mem_singleton_self _) rfl
  withChild h _ hc' _ := h.replaceNested hc'
  pushedDown h hp := h.pushedDown hp
  expandStarTo count q h := by
    obtain ⟨slots, keys, starred, heq⟩ := expandStarTo_eq count q
    rw [heq]
    exact h.congr rfl (List.Subset.refl _)
  project := by
    intro e explicit q _ h
    obtain ⟨slots, keys, starred, heq⟩ := project_eq e explicit q
    rw [heq]
    exact h.congr rfl (List.Subset.refl _)
  change h _ ht hm _ _ _ := h.congr hm (ht ▸ List.Subset.refl _)

theorem consistent_step (p : PagingPass) (h : q.Consistent) : (PagingPass.step q p).1.Consistent := by
  rcases PagingPass.step_query q p with heq | heq
  · rw [heq]
    exact h
  · rw [heq]
    exact (Edit.meets_replacePaging consistent_invariant p.columnName ⟨q, p.session⟩ h).1

/-- A pass over the queries of a tree keeps memos consistent. -/
theorem consistent_mapQueriesM (q : Query) : q.Consistent →
    ∀ p : PagingPass, (q.mapQueriesM PagingPass.step p).1.Consistent := by
  induction q using Query.induct with
  | h q ih =>
    intro h p
    -- Whether the pass fails does not matter.
    obtain ⟨q', p', heq, hpassed⟩ : ∃ q' p', q.mapQueriesM PagingPass.step p = PagingPass.step q' p' ∧
        PassedBelow PagingPass.step (fun _ => True) q q' := mapQueriesM_passed (fun _ _ _ => trivial) trivial
    obtain ⟨hmemo, htables⟩ := consistent_iff.1 h
    have hmemo' : q'.memo = q.memo := by rw [hpassed.same]
    rw [heq]
    apply consistent_step
    refine consistent_iff.2 ⟨hmemo' ▸ hmemo, fun t' ht' c' hc' => ?_⟩
    obtain ⟨t, ht, hpass⟩ := forall₂_mem_left hpassed.tables.flip ht'
    have hquery := Table.Passed.query? (fun _ _ _ => trivial) hpass
    rw [hc'] at hquery
    rcases hc : t.query? with _ | c
    · rw [hc] at hquery
      cases hquery
    · rw [hc, Option.rel_some_some] at hquery
      obtain ⟨s, rfl, -⟩ := hquery
      exact ih c (mem_children_of_table ht hc) (htables t ht c hc) s

end Query

/-! ## Answers -/

/-- What an operation answers with if it does not fail. -/
inductive Answer
  | done
  | table (t : Option Table)
  | expr (e : Expr)
  | key (key : OrderKey)
  | slot (i : Nat)
  /-- What a paging pass answers with, and the number of row-number columns named so far. -/
  | paged (result : Except Error Nat) (named : Nat)

/-- The answer with all indexes dropped from the trees in it. -/
def Answer.bare : Answer → Answer
  | table t => table (t.map Table.bare)
  | expr e => expr e.bare
  | key k => key k.bare
  | answer => answer

namespace Operation

/-- The operation with its answer, where `binder` binds columns. -/
def edit (binder : Binder) : Operation → Edit Answer
  | appendTable t => do
    Edit.modifyQuery (Query.appendTable t)
    return .done
  | detachTable name => modifyGet fun d =>
    let (t, query) := d.query.detachTable name
    (.table t, { d with query })
  | chooseWildcard name => do
    Edit.onQuery (Query.chooseWildcard name)
    return .done
  | switchWildcard starred => do
    Edit.onQuery (Query.switchWildcard starred)
    return .done
  | resolveColumn settings column type source => do
    return .expr (← Edit.onQuery (binder settings column type source))
  | resolveProperty settings properties property source =>
    match properties.column? property source with
    | some (column, type) => do return .expr (← Edit.onQuery (binder settings column type source))
    | none => throw (.propertyWithoutColumn property source)
  | project e explicit => modifyGet fun d =>
    let (i, query) := d.query.project e explicit
    (.slot i, { d with query })
  | projectOnly e => do return .slot (← Edit.projectOnly e)
  | projectNothing => do
    Edit.modifyQuery Query.projectNothing
    return .done
  | setMember member e => do
    Edit.modifyQuery (Query.setMember member e)
    return .done
  | restrict e => do
    Edit.modifyQuery (Query.restrict e)
    return .done
  | withPredicate e => do
    Edit.modifyQuery (Query.withPredicate e)
    return .done
  | orderAlso key => modifyGet fun d =>
    let (key, query) := d.query.orderAlso key
    (.key key, { d with query })
  | orderFirst keys => do
    Edit.modifyQuery (Query.orderFirst keys)
    return .done
  | unordered => do
    Edit.modifyQuery Query.unordered
    return .done
  | limitTo limit => do
    Edit.limitTo limit
    return .done
  | startAfter offset => do
    Edit.startAfter offset
    return .done
  | distinctRows distinct => do
    Edit.distinctRows distinct
    return .done
  | pushDown => do
    Edit.pushDown
    return .done
  | expandStar => do
    Edit.onQuery Query.expandStar
    return .done
  | replacePaging dialect named => modifyGet fun d =>
    let r := dialect.replacePaging named d.query d.session
    (.paged r.result r.named, { query := r.query, session := r.session })

theorem stateOf_bind_pure {α β : Type} (x : Edit α) (f : α → β) (d : Draft) :
    stateOf ((x >>= fun a => pure (f a)) d) = stateOf (x d) := by
  show stateOf (EStateM.bind x _ d) = _
  unfold EStateM.bind
  cases x d <;> rfl

theorem query_onQuery {α : Type} (act : EStateM Error Query α) (d : Draft) :
    (stateOf (Edit.onQuery act d)).query = stateOf (act d.query) := by
  unfold Edit.onQuery
  cases act d.query <;> rfl

/-- What it leaves is what the operation leaves. -/
theorem edit_query (op : Operation) (d : Draft) :
    (stateOf (op.edit Query.resolveColumn d)).query = op.run d.session d.query := by
  cases op with
  | chooseWildcard | switchWildcard | resolveColumn | expandStar => rw [edit, stateOf_bind_pure, query_onQuery, run]
  | resolveProperty settings properties property source =>
    rw [edit, run, Query.resolveProperty]
    rcases properties.column? property source with _ | ⟨column, type⟩
    · rfl
    · simp only
      rw [stateOf_bind_pure, query_onQuery]
  | projectOnly | limitTo | startAfter | distinctRows | pushDown => rw [edit, stateOf_bind_pure, run]
  | appendTable | detachTable | project | projectNothing | setMember | restrict | withPredicate | orderAlso | orderFirst
  | unordered | replacePaging => rfl

/-- Every memo in a table that is given, if one is, is consistent. -/
def Consistent : Operation → Prop
  | appendTable t => ∀ c, t.query? = some c → c.Consistent
  | _ => True

theorem consistent_run {q : Query} (h : q.Consistent) (s : Session) {op : Operation} (hop : op.Consistent) :
    (op.run s q).Consistent := by
  have inv := Query.consistent_invariant
  have hnone (o : Option Expr) : ∀ e ∈ o, e.Below fun _ => True := fun _ _ _ _ => trivial
  -- Indexes are built where columns are bound; all other operations copy memos or drop them.
  cases op with
  | appendTable t => exact h.appendTable hop
  | detachTable name =>
    rw [run]
    unfold Query.detachTable
    split
    · exact h
    · exact h.congr rfl List.eraseIdx_subset
  | chooseWildcard name =>
    rw [run, Query.chooseWildcard_eq]
    split
    · exact h.congr rfl (List.Subset.refl _)
    · exact h
  | switchWildcard starred =>
    rw [run, Query.switchWildcard_eq]
    split
    · exact h
    · exact h.congr rfl (List.Subset.refl _)
  | resolveColumn settings column type source => exact (q.grows_resolveColumn settings column type source).consistent h
  | resolveProperty settings properties property source =>
    exact (q.grows_resolveProperty settings properties property source).consistent h
  | project e explicit => exact inv.project explicit (fun _ _ => trivial) h
  | projectOnly e => exact (Edit.meets_projectOnly inv (fun _ _ => trivial) ⟨q, s⟩ h).1
  | limitTo limit => exact (Edit.meets_limitTo inv (hnone limit) ⟨q, s⟩ h).1
  | startAfter offset => exact (Edit.meets_startAfter inv (hnone offset) ⟨q, s⟩ h).1
  | distinctRows distinct => exact (Edit.meets_distinctRows inv distinct ⟨q, s⟩ h).1
  | pushDown => exact (Edit.meets_pushDown inv ⟨q, s⟩ h).1
  | expandStar => exact inv.expandStarTo none h
  | replacePaging dialect named =>
    rw [run]
    unfold Dialect.replacePaging
    split
    · exact h
    · exact Query.consistent_mapQueriesM q h _
  | projectNothing | setMember | restrict | withPredicate | orderAlso | orderFirst | unordered =>
    exact h.congr rfl (List.Subset.refl _)

/-- The operation with all indexes dropped from the trees that it is given. -/
def bare : Operation → Operation
  | appendTable t => appendTable t.bare
  | project e explicit => project e.bare explicit
  | projectOnly e => projectOnly e.bare
  | setMember member e => setMember member e.bare
  | restrict e => restrict e.bare
  | withPredicate e => withPredicate (e.map Expr.bare)
  | orderAlso key => orderAlso key.bare
  | orderFirst keys => orderFirst (keys.map OrderKey.bare)
  | limitTo limit => limitTo (limit.map Expr.bare)
  | startAfter offset => startAfter (offset.map Expr.bare)
  | op => op

theorem mirrors_done {x y : Edit Unit} (hx : Edit.Mirrors id x y) :
    Edit.Mirrors Answer.bare (do x; return .done) (do y; return .done) :=
  .bind hx fun _ => .pure rfl

theorem edit_bare (op : Operation) {d : Draft} (h : d.query.Consistent) :
    op.bare.edit (fun _ => Query.resolveByScan) d.bare =
      mapResult Answer.bare Draft.bare (op.edit Query.resolveColumn d) := by
  -- Only binding uses an index, and only for it the memos have to be consistent.
  have hbind (settings : Settings) (column : String) (type : DataType) (source : Source) :
      (do return Answer.expr (← Edit.onQuery (Query.resolveByScan column type source)) : Edit Answer) d.bare =
        mapResult Answer.bare Draft.bare
          ((do return Answer.expr (← Edit.onQuery (Query.resolveColumn settings column type source)) :
            Edit Answer) d) :=
    Edit.bind_bare (Edit.onQuery_bare (Query.resolveColumn_bare settings column type source h).symm) fun _ => .pure rfl
  cases op with
  | appendTable t => exact mirrors_done (.modifyQuery fun q => q.appendTable_bare t) d
  | detachTable name =>
    refine Edit.Mirrors.modifyGet (fun d => ?_) d
    show (Answer.table (d.query.bare.detachTable name).1, { d with query := (d.query.bare.detachTable name).2 }) = _
    rw [Query.detachTable_bare]
    rfl
  | chooseWildcard name => exact mirrors_done (.onQuery fun q => q.chooseWildcard_bare name) d
  | switchWildcard starred => exact mirrors_done (.onQuery fun q => q.switchWildcard_bare starred) d
  | resolveColumn settings column type source => exact hbind settings column type source
  | resolveProperty settings properties property source =>
    show (resolveProperty settings properties property source).edit _ d.bare = _
    rw [edit, edit]
    rcases properties.column? property source with _ | ⟨column, type⟩
    · rfl
    · exact hbind settings column type source
  | project e explicit =>
    refine Edit.Mirrors.modifyGet (fun d => ?_) d
    show (Answer.slot (d.query.bare.project e.bare explicit).1,
      { d with query := (d.query.bare.project e.bare explicit).2 }) = _
    rw [Query.project_bare]
    rfl
  | projectOnly e =>
    have hslot : Edit.Mirrors Answer.bare (do return .slot (← Edit.projectOnly e))
        (do return .slot (← Edit.projectOnly e.bare)) := .bind (Edit.mirrors_projectOnly e) fun _ => .pure rfl
    exact hslot d
  | projectNothing => exact mirrors_done (.modifyQuery Edit.projectNothing_bare) d
  | setMember member e => exact mirrors_done (.modifyQuery fun q => q.setMember_bare e member) d
  | restrict e => exact mirrors_done (.modifyQuery fun q => q.restrict_bare e) d
  | withPredicate e => exact mirrors_done (.modifyQuery fun q => by simp [Query.withPredicate, Query.bare_eq]) d
  | orderAlso key =>
    refine Edit.Mirrors.modifyGet (fun d => ?_) d
    show (Answer.key (d.query.bare.orderAlso key.bare).1, { d with query := (d.query.bare.orderAlso key.bare).2 }) = _
    rw [Query.orderAlso_bare]
    rfl
  | orderFirst keys => exact mirrors_done (.modifyQuery fun q => q.orderFirst_bare keys) d
  | unordered => exact mirrors_done (.modifyQuery Edit.unordered_bare) d
  | limitTo limit => exact mirrors_done (Edit.mirrors_limitTo limit) d
  | startAfter offset => exact mirrors_done (Edit.mirrors_startAfter offset) d
  | distinctRows distinct => exact mirrors_done (Edit.mirrors_distinctRows distinct) d
  | pushDown => exact mirrors_done Edit.mirrors_pushDown d
  | expandStar => exact mirrors_done (Edit.mirrors_expandStarTo none) d
  | replacePaging dialect named =>
    refine Edit.Mirrors.modifyGet (fun d => ?_) d
    have hpass := dialect.replacePaging_bare named d.query d.session
    generalize dialect.replacePaging named d.query d.session = r at hpass ⊢
    show (let r := dialect.replacePaging named d.query.bare d.session
      (Answer.paged r.result r.named, ({ query := r.query, session := r.session } : Draft))) = _
    rw [hpass]
    rfl

end Operation

/-! ## Runs -/

/-- Does something to the query `level` further down, where each on the way has the next one for its only
table. -/
def Edit.atLevel {α : Type} : Nat → Edit α → Edit α
  | 0, act => act
  | level + 1, act => onNested (atLevel level act)

/-- An operation on the query `level` further down. -/
structure Step where
  level : Nat
  op : Operation

def Step.bare (step : Step) : Step := { step with op := step.op.bare }

namespace Draft

/-- One step, with its answer or failure. -/
def step (binder : Binder) (step : Step) (d : Draft) : Except Error Answer × Draft :=
  match Edit.atLevel step.level (step.op.edit binder) d with
  | .ok answer d => (.ok answer, d)
  | .error e d => (.error e, d)

/-- All steps one after the other, with their answers. -/
def run (binder : Binder) : List Step → Draft → List (Except Error Answer) × Draft
  | [], d => ([], d)
  | step :: steps, d =>
    let (answer, d) := d.step binder step
    let (answers, d) := run binder steps d
    (answer :: answers, d)

variable {d d' : Draft}

theorem consistent_atLevel {op : Operation} (hop : op.Consistent) : ∀ (level : Nat) {d : Draft}, d.query.Consistent →
    (stateOf (Edit.atLevel level (op.edit Query.resolveColumn) d)).query.Consistent
  | 0, d, h => by
    rw [Edit.atLevel, Operation.edit_query]
    exact Operation.consistent_run h d.session hop
  | level + 1, d, h => by
    rw [Edit.atLevel]
    unfold Edit.onNested
    split
    · rename_i child ht
      have hchild := Query.consistent_invariant.child h ht
      have hinner := consistent_atLevel hop level (d := { d with query := child }) hchild
      rcases hr : Edit.atLevel level (op.edit Query.resolveColumn) { d with query := child } with
        ⟨a, inner⟩ | ⟨e, inner⟩
      all_goals
        rw [hr] at hinner
        exact h.replaceNested hinner
    · exact h

theorem consistent_step {step : Step} (hop : step.op.Consistent) (h : d.query.Consistent) :
    (d.step Query.resolveColumn step).2.query.Consistent := by
  have hstate := consistent_atLevel hop step.level h
  unfold Draft.step
  cases hr : Edit.atLevel step.level (step.op.edit Query.resolveColumn) d with
  | ok | error =>
    rw [hr] at hstate
    exact hstate

theorem atLevel_bare (op : Operation) : ∀ (level : Nat) {d : Draft}, d.query.Consistent →
    Edit.atLevel level (op.bare.edit fun _ => Query.resolveByScan) d.bare =
      mapResult Answer.bare Draft.bare (Edit.atLevel level (op.edit Query.resolveColumn) d)
  | 0, _, h => op.edit_bare h
  | level + 1, _, h => Edit.onNested_bare fun _ ht => atLevel_bare op level (Query.consistent_invariant.child h ht)

theorem step_bare (step : Step) (h : d.query.Consistent) : d.bare.step (fun _ => Query.resolveByScan) step.bare =
    ((d.step Query.resolveColumn step).1.map Answer.bare, (d.step Query.resolveColumn step).2.bare) := by
  unfold Draft.step
  rw [show step.bare.level = step.level from rfl, show step.bare.op = step.op.bare from rfl,
    atLevel_bare step.op step.level h]
  cases Edit.atLevel step.level (step.op.edit Query.resolveColumn) d <;> rfl

/-- Any run is, up to indexes, a run on the bare draft in which memos are scanned. -/
theorem run_bare : ∀ (steps : List Step) {d : Draft}, (∀ step ∈ steps, step.op.Consistent) → d.query.Consistent →
    d.bare.run (fun _ => Query.resolveByScan) (steps.map Step.bare) =
      ((d.run Query.resolveColumn steps).1.map (·.map Answer.bare), (d.run Query.resolveColumn steps).2.bare)
  | [], _, _, _ => rfl
  | step :: steps, d, hsteps, h => by
    obtain ⟨hop, hsteps⟩ := List.forall_mem_cons.1 hsteps
    simp only [List.map_cons, run, step_bare step h, run_bare steps hsteps (consistent_step hop h)]

/-- Runs that differ in indexes only, of the draft and in what they are given, come to the same. -/
theorem run_alike {steps steps' : List Step} (hd : d.query.Consistent) (hd' : d'.query.Consistent)
    (hsteps : ∀ step ∈ steps, step.op.Consistent) (hsteps' : ∀ step ∈ steps', step.op.Consistent)
    (h : d'.bare = d.bare) (hbare : steps'.map Step.bare = steps.map Step.bare) :
    (d'.run Query.resolveColumn steps').1.map (·.map Answer.bare) =
        (d.run Query.resolveColumn steps).1.map (·.map Answer.bare) ∧
      (d'.run Query.resolveColumn steps').2.bare = (d.run Query.resolveColumn steps).2.bare := by
  have hrun := run_bare steps hsteps hd
  -- Both are the run on the bare draft.
  rw [← h, ← hbare, run_bare steps' hsteps' hd'] at hrun
  exact Prod.mk.inj hrun

end Draft

/-! ## What is read back -/

namespace Query

theorem ofJson?_toJson {q : Query} (h : q.Everywhere Finite) : ofJson? q.toJson = some q.bare :=
  readsBare q h _ (Nat.lt_succ_self _)

theorem consistent_bare (q : Query) : q.bare.Consistent := by
  induction q using induct with
  | h q ih =>
    refine consistent_iff.2 ⟨q.memo_bare ▸ StarMemo.consistent_of_entries _, fun t' ht' c' hc' => ?_⟩
    rw [tables_bare] at ht'
    obtain ⟨t, ht, rfl⟩ := List.mem_map.1 ht'
    rw [Table.query?_bare, Option.map_eq_some_iff] at hc'
    obtain ⟨c, hc, rfl⟩ := hc'
    exact ih c (mem_children_of_table ht hc)

theorem nanFree_of_finite {q : Query} (h : q.Finite) : q.NaNFree := by
  intro e he x ty hx
  have hfinite := h e he x ty hx
  simp only [Double.isFinite, decide_eq_true_eq] at hfinite
  simp [Double.isNaN, hfinite]

/-- A query in which no number is infinite or a NaN is read back from what is written of it, as one that
equals it. Its members have different names, as in a map, and its memos are consistent, as in any query that
is assembled (`Assembled.consistent`) or has been read (`consistent_bare`).

Whatever is done to the two afterwards, on them or in the queries that they are pushed down into, answers and
fails alike, names alike, and leaves equal queries: the trees differ in indexes only, which neither equality
nor SQL text sees. What the steps are given may differ in indexes too, as it does where an answer of one run
is used in its later steps. -/
theorem restored_works_alike {q : Query} (hfinite : q.Everywhere Finite) (hkeyed : q.Everywhere Keyed)
    (hmemos : q.Consistent) : ∃ r : Query, ofJson? q.toJson = some r ∧ q.beq r = true ∧
      ∀ (s : Session) (steps steps' : List Step), (∀ step ∈ steps, step.op.Consistent) →
        (∀ step ∈ steps', step.op.Consistent) → steps'.map Step.bare = steps.map Step.bare →
          let original := Draft.run resolveColumn steps ⟨q, s⟩
          let restored := Draft.run resolveColumn steps' ⟨r, s⟩
          restored.1.map (·.map Answer.bare) = original.1.map (·.map Answer.bare) ∧
            restored.2.session = original.2.session ∧ restored.2.query.bare = original.2.query.bare ∧
            original.2.query.beq restored.2.query = original.2.query.beq original.2.query := by
  refine ⟨q.bare, ofJson?_toJson hfinite, ?_, fun s steps steps' hsteps hsteps' hbare => ?_⟩
  · rw [beq_bare_self, beq_self_iff q hkeyed]
    exact fun x hx => nanFree_of_finite (hfinite x hx)
  · have hdraft : (⟨q.bare, s⟩ : Draft).bare = Draft.bare ⟨q, s⟩ := by
      rw [Draft.bare, Draft.bare, bare_bare]
    have hrestored : (⟨q.bare, s⟩ : Draft).query.Consistent := consistent_bare q
    obtain ⟨hanswers, hleft⟩ := Draft.run_alike hmemos hrestored hsteps hsteps' hdraft hbare
    obtain ⟨hquery, hsession⟩ := Draft.mk.inj hleft
    refine ⟨hanswers, hsession, hquery, ?_⟩
    rw [← beq_bare, hquery, beq_bare]

/-- A query with an indexed memo and its copy without the index. On both a column is bound, a page is cut
twice, the column is bound in the query that has been pushed down, and a wildcard over that query's table is
refused. -/
theorem restored_works_alike_people :
    let column : Expr := .column "p" (some ⟨1⟩) "Id" .int32
    let half : Expr := .constant (.double ⟨0x3fe0000000000000⟩) ⟨.double, false⟩
    let people : Query := {
      tables := [.base "People" none "p" (some ⟨1⟩)]
      predicate := some (.binary .lessThan half column)
      starred := true
      memo := StarMemo.add 0 column {} }
    let five : Expr := .constant (.integer 5) .int32
    let steps : List Step := [⟨0, .resolveColumn {} "Id" .int32 ⟨1⟩⟩, ⟨0, .orderAlso ⟨column, .asc⟩⟩,
      ⟨0, .limitTo (some five)⟩, ⟨0, .limitTo (some five)⟩, ⟨1, .resolveColumn {} "Id" .int32 ⟨1⟩⟩,
      ⟨0, .chooseWildcard "p"⟩]
    people.memo.index.isEmpty = false ∧ ∃ r : Query, ofJson? people.toJson = some r ∧ r.memo.index.isEmpty = true ∧
      people.beq r = true ∧
      (Draft.run resolveColumn steps ⟨r, {}⟩).1.map (·.map Answer.bare) =
        (Draft.run resolveColumn steps ⟨people, {}⟩).1.map (·.map Answer.bare) ∧
      (Draft.run resolveColumn steps ⟨people, {}⟩).1.map (·.isOk) = [true, true, true, true, true, false] := by
  intro column half people five steps
  have hnone : people.parts = [] := rfl
  have hcolumn : column.Finite := Expr.finite_iff.2 ⟨nofun, nofun⟩
  have hhalf : half.Finite := by
    refine Expr.finite_iff.2 ⟨fun x ty hx => ?_, nofun⟩
    obtain ⟨hvalue, -⟩ := Expr.constant.inj hx
    cases hvalue
    decide
  have hpredicate : (Expr.binary .lessThan half column).Finite :=
    Expr.finite_iff.2 ⟨nofun, List.forall_mem_cons.2 ⟨hhalf, List.forall_mem_singleton.2 hcolumn⟩⟩
  have hfinite : people.Everywhere Finite :=
    (everywhere_iff_parts _).2
      ⟨List.forall_mem_cons.2 ⟨hpredicate, List.forall_mem_singleton.2 hcolumn⟩, hnone ▸ nofun⟩
  have hkeyed : people.Everywhere Keyed := (everywhere_iff_parts _).2 ⟨List.nodup_nil, hnone ▸ nofun⟩
  have hmemos : people.Consistent := by
    refine consistent_iff.2 ⟨(StarMemo.consistent_of_entries []).add 0 column, fun t ht c hc => ?_⟩
    rw [List.mem_singleton.1 ht] at hc
    cases hc
  have hsteps : ∀ step ∈ steps, step.op.Consistent := by simp [steps, Operation.Consistent]
  obtain ⟨r, hr, hequal, hruns⟩ := restored_works_alike hfinite hkeyed hmemos
  obtain ⟨hanswers, -⟩ := hruns {} steps steps hsteps hsteps rfl
  obtain rfl : people.bare = r := Option.some.inj (ofJson?_toJson hfinite ▸ hr)
  refine ⟨?_, people.bare, hr, ?_, hequal, hanswers, ?_⟩
  · simp [people, StarMemo.add, StarMemo.indexOf, StarMemo.note]
  · simp
  · have hok (answers : List (Except Error Answer)) :
        answers.map (·.isOk) = (answers.map (·.map Answer.bare)).map (·.isOk) := by
      rw [List.map_map]
      exact List.map_congr_left fun answer _ => by cases answer <;> rfl
    rw [hok, ← hanswers, ← hok]
    decide +kernel

end Query

end QueryTree
