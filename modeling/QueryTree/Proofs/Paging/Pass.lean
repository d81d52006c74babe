/-
The paging pass, query by query. A pass that succeeds leaves each query, once it is done below it, as
it is, if its rows need no numbering, and else with its paging replaced.
-/
import QueryTree.Proofs.Children

namespace QueryTree

theorem Query.needsNumbering_iff {q : Query} :
    q.needsNumbering = true ↔ q.offset.isSome = true ∧ q.projection.any Expr.numbersRows = false := by
  rw [needsNumbering, Bool.and_eq_true, Bool.not_eq_true']

namespace PagingPass

/-! ## Single steps -/

theorem step_of_not_needed {q : Query} (h : q.needsNumbering = false) : step q = pure q := by
  funext p
  unfold step
  rw [h, Bool.not_false, Bool.or_true, if_pos rfl]
  rfl

theorem step_of_ok {q : Query} {p : PagingPass} {d : Draft} (hp : p.failure = none)
    (h : q.needsNumbering = true) (hd : Edit.replacePaging p.columnName ⟨q, p.session⟩ = .ok () d) :
    (step q).run p = (d.query, { p with session := d.session, named := p.named + 1, replaced := p.replaced + 1 }) := by
  change step q p = _
  unfold step
  rw [h, if_neg (by simp [hp]), hd]

theorem step_of_error {q : Query} {p : PagingPass} {e : Error} {d : Draft} (hp : p.failure = none)
    (h : q.needsNumbering = true) (hd : Edit.replacePaging p.columnName ⟨q, p.session⟩ = .error e d) :
    (step q).run p = (d.query, { p with session := d.session, named := p.named + 1, failure := some e }) := by
  change step q p = _
  unfold step
  rw [h, if_neg (by simp [hp]), hd]

/-- Nothing has ended the pass so far. -/
def Goes (p : PagingPass) : Prop := p.failure = none

/-- What a step that does not end the pass makes of a query. -/
inductive Treats (q : Query) : Query → Prop
  | kept : q.needsNumbering = false → Treats q q
  | replaced {column : String} {s : Session} {d : Draft} : q.needsNumbering = true →
      Edit.replacePaging column ⟨q, s⟩ = .ok () d → Treats q d.query

theorem step_cases {q : Query} {p : PagingPass} (h : (step q p).2.Goes) : p.Goes ∧ Treats q (step q p).1 := by
  have hp : p.failure = none := by
    rcases hf : p.failure with _ | e
    · rfl
    · unfold step at h
      rw [hf, Option.isSome_some, Bool.true_or, if_pos rfl, Goes, hf] at h
      cases h
  refine ⟨hp, ?_⟩
  cases hq : q.needsNumbering with
  | false =>
    rw [step_of_not_needed hq]
    exact .kept hq
  | true =>
    rcases hd : Edit.replacePaging p.columnName ⟨q, p.session⟩ with ⟨⟨⟩, d⟩ | ⟨e, d⟩
    · have hstep : step q p = _ := step_of_ok hp hq hd
      rw [hstep]
      exact .replaced hq hd
    · have hstep : step q p = _ := step_of_error hp hq hd
      rw [hstep] at h
      cases h

/-- No step goes on where the pass has ended. -/
theorem goes_back (q : Query) (p : PagingPass) (h : (step q p).2.Goes) : p.Goes := (step_cases h).1

end PagingPass

/-! ## Where a pass comes to -/

section Visits

variable {σ : Type} {f : Query → StateM σ Query}

/-- A pass over a tree, from some state, comes to the query `x` in the state `s`: all below it has been
treated, and it is treated next. -/
inductive Query.Visits (f : Query → StateM σ Query) (x : Query) (s : σ) : Query → σ → Prop
  | root {q : Query} {s₀ : σ} : q.mapBelowM f s₀ = (x, s) → Visits f x s q s₀
  | child {q c : Query} {before after : List Query} {s₀ : σ} : q.children = before ++ c :: after →
      Visits f x s c (before.mapM (Query.mapQueriesM f) s₀).2 → Visits f x s q s₀

theorem Query.mapQueriesM_run (f : Query → StateM σ Query) (q : Query) (s : σ) :
    q.mapQueriesM f s = f (q.mapBelowM f s).1 (q.mapBelowM f s).2 := by
  rw [Query.mapQueriesM_eq]
  rfl

section Back

variable {ok : σ → Prop} (hback : ∀ q s, ok (f q s).2 → ok s) {x q c : Query} {before after : List Query} {s s₀ : σ}
include hback

/-- If all is well in the end it is so after each child. -/
theorem Query.ok_child (hchildren : q.children = before ++ c :: after) (h : ok (q.mapQueriesM f s₀).2) :
    ok (c.mapQueriesM f (before.mapM (Query.mapQueriesM f) s₀).2).2 := by
  rw [Query.mapQueriesM_eq] at h
  have hbelow : ok (q.mapBelowM f s₀).2 := hback _ _ h
  have hstate : (q.mapBelowM f s₀).2 = (q.children.mapM (Query.mapQueriesM f) s₀).2 :=
    congrArg Prod.snd (congrFun (Query.children_mapBelowM f q) s₀)
  rw [hstate, hchildren, List.mapM_append, List.mapM_cons] at hbelow
  exact (forall₂_mapM (fun b _ => Query.ok_of_mapQueriesM hback b) _ hbelow).1

/-- If all is well in the end it is so after each query. -/
theorem Query.Visits.ok_after (hx : Query.Visits f x s q s₀) (h : ok (q.mapQueriesM f s₀).2) : ok (f x s).2 := by
  induction hx with
  | root hbelow =>
    rw [Query.mapQueriesM_run, hbelow] at h
    exact h
  | child hchildren _ ih => exact ih (Query.ok_child hback hchildren h)

/-- What the pass comes to is a query of the tree, once all below it is treated. -/
theorem Query.Visits.reached (hx : Query.Visits f x s q s₀) (h : ok (q.mapQueriesM f s₀).2) :
    ∃ x₀ ∈ q.queries, Query.PassedBelow f ok x₀ x := by
  induction hx with
  | @root q s₀ hbelow =>
    rw [Query.mapQueriesM_run] at h
    have hpassed := Query.mapBelowM_passed hback (hback _ _ h)
    rw [hbelow] at hpassed
    exact ⟨q, Query.self_mem_queries q, hpassed⟩
  | @child q c before after s₀ hchildren _ ih =>
    obtain ⟨x₀, hx₀, hpassed⟩ := ih (Query.ok_child hback hchildren h)
    refine ⟨x₀, Query.mem_queries_iff.2 (.inr ⟨c, ?_, hx₀⟩), hpassed⟩
    rw [hchildren]
    exact List.mem_append_right _ (List.mem_cons_self ..)

/-- The pass comes to each query of the tree. -/
theorem Query.visits_exists (q : Query) : ∀ {s₀ : σ}, ok (q.mapQueriesM f s₀).2 → ∀ x₀ ∈ q.queries,
    ∃ x s, Query.Visits f x s q s₀ ∧ Query.PassedBelow f ok x₀ x := by
  induction q using Query.induct with
  | h q ih =>
    intro s₀ h x₀ hx₀
    rcases Query.mem_queries_iff.1 hx₀ with rfl | ⟨c, hc, hx₀⟩
    · rw [Query.mapQueriesM_run] at h
      exact ⟨_, _, .root rfl, Query.mapBelowM_passed hback (hback _ _ h)⟩
    · obtain ⟨before, after, hchildren⟩ := List.append_of_mem hc
      obtain ⟨x, s, hvisits, hpassed⟩ := ih c hc (Query.ok_child hback hchildren h) x₀ hx₀
      exact ⟨x, s, .child hchildren hvisits, hpassed⟩

end Back

end Visits

/-! ## The whole pass -/

open PagingPass (Goes Treats)

/-- A query goes through the pass: all below it do, and it is treated as they have left it. -/
theorem Query.Passed.treated {q r : Query} (h : Query.Passed PagingPass.step Goes q r) :
    ∃ q', Query.PassedBelow PagingPass.step Goes q q' ∧ Treats q' r := by
  obtain ⟨s, rfl, hgoes⟩ := h
  obtain ⟨q', s', heq, hbelow⟩ := Query.mapQueriesM_passed PagingPass.goes_back hgoes
  rw [heq] at hgoes ⊢
  exact ⟨q', hbelow, (PagingPass.step_cases hgoes).2⟩

variable {dialect : Dialect} {named n : Nat} {q : Query} {s : Session}

theorem Dialect.replacePaging_query (hwithout : dialect.hasOffset = false) (hwindows : dialect.hasWindows = true) :
    (dialect.replacePaging named q s).query = (q.mapQueriesM PagingPass.step { session := s, named }).1 := by
  unfold Dialect.replacePaging
  rw [hwithout, hwindows, if_neg (by decide)]
  rfl

/-- In the end nothing has ended a pass that succeeds. -/
theorem Dialect.goes_of_ok (hwithout : dialect.hasOffset = false) (hwindows : dialect.hasWindows = true)
    (h : (dialect.replacePaging named q s).result = .ok n) :
    Goes (q.mapQueriesM PagingPass.step { session := s, named }).2 := by
  unfold Dialect.replacePaging at h
  rw [hwithout, hwindows, if_neg (by decide)] at h
  rcases hrun : q.mapQueriesM PagingPass.step { session := s, named } with ⟨r, p⟩
  simp only [StateT.run, hrun] at h
  show p.failure = none
  rcases hfailure : p.failure with _ | err
  · rfl
  · simp only [hfailure] at h
    cases h

theorem Dialect.passed_of_ok (hwithout : dialect.hasOffset = false) (hwindows : dialect.hasWindows = true)
    (h : (dialect.replacePaging named q s).result = .ok n) :
    Query.Passed PagingPass.step Goes q (dialect.replacePaging named q s).query :=
  ⟨{ session := s, named }, (Dialect.replacePaging_query hwithout hwindows).symm,
    Dialect.goes_of_ok hwithout hwindows h⟩

/-- Where no query needs numbering nothing is changed. -/
theorem Query.mapQueriesM_of_not_needed (hq : ∀ x ∈ q.queries, x.needsNumbering = false) :
    q.mapQueriesM PagingPass.step = pure q := by
  rw [Query.queries_eq, List.forall_mem_cons] at hq
  rw [Query.mapQueriesM_of_pure fun x hx => PagingPass.step_of_not_needed (hq.2 x hx),
    PagingPass.step_of_not_needed hq.1]

/-- Where no query needs numbering the pass finds nothing to do. -/
theorem Dialect.replacePaging_of_none (hq : ∀ x ∈ q.queries, x.needsNumbering = false) :
    dialect.replacePaging named q s = ⟨.ok 0, q, s, named⟩ := by
  unfold Dialect.replacePaging
  split
  · rfl
  · rw [Query.mapQueriesM_of_not_needed hq]; rfl

end QueryTree
