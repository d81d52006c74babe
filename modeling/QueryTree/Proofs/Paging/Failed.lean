/-
Passes that fail. A pass ends at the first query whose paging cannot be replaced and leaves all others
alone from there on, but what it has changed by then stays changed. So a tree comes out of a failed
pass as it was only where the pass fails at the very first query with paging, and there at the very
first change, the push-down.
-/
import QueryTree.Proofs.Failure
import QueryTree.Proofs.Paging.Pass

namespace QueryTree

/-! ## Passes that change no child -/

section Children

variable {σ : Type}

theorem length_mapM {α β : Type} (g : α → StateM σ β) : ∀ (xs : List α) (s : σ), (xs.mapM g s).1.length = xs.length
  | [], _ => rfl
  | x :: xs, s => by
    rw [List.mapM_cons]
    exact congrArg Nat.succ (length_mapM g xs (g x s).2)

variable (f : Query → StateM σ Query)

/-- What is treated by way of its children has as many afterwards. -/
theorem length_of_children {α : Type} {x : StateM σ α} {children : α → List Query} {cs : List Query}
    (hx : children <$> x = cs.mapM (Query.mapQueriesM f)) (s : σ) : (children (x s).1).length = cs.length := by
  have heq : children (x s).1 = (cs.mapM (Query.mapQueriesM f) s).1 := congrArg Prod.fst (congrFun hx s)
  rw [heq]
  exact length_mapM _ cs s

mutual

/-- A pass changes nothing of an expression but the queries right below it. -/
theorem Expr.eq_of_children : ∀ (e : Expr) (s : σ), (e.mapQueriesM f s).1.children = e.children →
    (e.mapQueriesM f s).1 = e
  | .named name inner, s, h => congrArg (Expr.named name) (Expr.eq_of_children inner s h)
  | .rowNumber keys, s, h => congrArg Expr.rowNumber (keys_eq_of_children keys s h)
  | .cast operand type, s, h => congrArg (Expr.cast · type) (Expr.eq_of_children operand s h)
  | .binary op left right, s, h => by
    obtain ⟨hl, hr⟩ := List.append_inj h (length_of_children f (Expr.children_mapQueriesM f left) s)
    exact congrArg₂ (Expr.binary op) (Expr.eq_of_children left s hl) (Expr.eq_of_children right _ hr)
  | .not operand, s, h => congrArg Expr.not (Expr.eq_of_children operand s h)
  | .call function args type, s, h => congrArg (Expr.call function · type) (exprs_eq_of_children args s h)
  | .exist query, s, h => congrArg Expr.exist (List.singleton_inj.1 h)
  | .column .., _, _ | .star _, _, _ | .output .., _, _ | .constant .., _, _ | .parameter .., _, _ => rfl

theorem exprs_eq_of_children : ∀ (es : List Expr) (s : σ), exprChildren (exprsMapQueriesM f es s).1 = exprChildren es →
    (exprsMapQueriesM f es s).1 = es
  | [], _, _ => rfl
  | e :: es, s, h => by
    obtain ⟨he, hes⟩ := List.append_inj h (length_of_children f (Expr.children_mapQueriesM f e) s)
    exact congrArg₂ List.cons (Expr.eq_of_children e s he) (exprs_eq_of_children es _ hes)

theorem keys_eq_of_children : ∀ (keys : List OrderKey) (s : σ),
    keyChildren (keysMapQueriesM f keys s).1 = keyChildren keys → (keysMapQueriesM f keys s).1 = keys
  | [], _, _ => rfl
  | ⟨e, direction⟩ :: keys, s, h => by
    obtain ⟨he, hkeys⟩ := List.append_inj h (length_of_children f (Expr.children_mapQueriesM f e) s)
    exact congrArg₂ List.cons (congrArg (OrderKey.mk · direction) (Expr.eq_of_children e s he))
      (keys_eq_of_children keys _ hkeys)

end

theorem option_eq_of_children : ∀ (e : Option Expr) (s : σ),
    (optionMapQueriesM f e s).1.toList.flatMap Expr.children = e.toList.flatMap Expr.children →
      (optionMapQueriesM f e s).1 = e
  | none, _, _ => rfl
  | some e, s, h => by
    refine congrArg some (Expr.eq_of_children f e s ?_)
    exact (List.append_nil _).symm.trans (h.trans (List.append_nil _))

theorem Table.eq_of_children : ∀ (t : Table) (s : σ), (t.mapQueriesM f s).1.children = t.children →
    (t.mapQueriesM f s).1 = t
  | .base .., _, _ => rfl
  | .join kind target condition, s, h => by
    obtain ⟨ht, hc⟩ := List.append_inj h (length_of_children f (Table.children_mapQueriesM f target) s)
    exact congrArg₂ (Table.join kind) (Table.eq_of_children target s ht) (option_eq_of_children f condition _ hc)
  | .nested query, s, h => congrArg Table.nested (List.singleton_inj.1 h)

theorem tables_eq_of_children : ∀ (ts : List Table) (s : σ),
    (tablesMapQueriesM f ts s).1.flatMap Table.children = ts.flatMap Table.children → (tablesMapQueriesM f ts s).1 = ts
  | [], _, _ => rfl
  | t :: ts, s, h => by
    obtain ⟨ht, hts⟩ := List.append_inj h (length_of_children f (Table.children_mapQueriesM f t) s)
    exact congrArg₂ List.cons (Table.eq_of_children f t s ht) (tables_eq_of_children ts _ hts)

/-- A query all of whose children are as they were is as it was. -/
theorem Query.eq_of_children (q : Query) (s : σ) (h : (q.mapBelowM f s).1.children = q.children) :
    (q.mapBelowM f s).1 = q := by
  have hexprs (es : List Expr) (s : σ) :
      ((exprsMapQueriesM f es s).1.flatMap Expr.children).length = (es.flatMap Expr.children).length := by
    simpa only [exprChildren_eq_flatMap] using length_of_children f (children_exprsMapQueriesM f es) s
  have hkeys (keys : List OrderKey) (s : σ) : ((keysMapQueriesM f keys s).1.flatMap fun k => k.expr.children).length =
      (keys.flatMap fun k => k.expr.children).length := by
    simpa only [keyChildren_eq_flatMap] using length_of_children f (children_keysMapQueriesM f keys) s
  have hoption (e : Option Expr) (s : σ) := length_of_children f (children_optionMapQueriesM f e) s
  -- Part by part there are as many children as before, so each part has its own.
  simp only [children, exprs, List.flatMap_append, List.flatMap_map, List.append_assoc] at h
  obtain ⟨ht, h⟩ := List.append_inj h (length_of_children f (children_tablesMapQueriesM f q.tables) s)
  obtain ⟨hp, h⟩ := List.append_inj h (hexprs q.projection _)
  obtain ⟨hw, h⟩ := List.append_inj h (hoption q.predicate _)
  obtain ⟨hk, h⟩ := List.append_inj h (hkeys q.orderBy _)
  obtain ⟨hl, ho⟩ := List.append_inj h (hoption q.limit _)
  rw [← exprChildren_eq_flatMap, ← exprChildren_eq_flatMap] at hp
  rw [← keyChildren_eq_flatMap, ← keyChildren_eq_flatMap] at hk
  have ht : (q.mapBelowM f s).1.tables = q.tables := tables_eq_of_children f q.tables _ ht
  have hp : (q.mapBelowM f s).1.projection = q.projection := exprs_eq_of_children f q.projection _ hp
  have hw : (q.mapBelowM f s).1.predicate = q.predicate := option_eq_of_children f q.predicate _ hw
  have hk : (q.mapBelowM f s).1.orderBy = q.orderBy := keys_eq_of_children f q.orderBy _ hk
  have hl : (q.mapBelowM f s).1.limit = q.limit := option_eq_of_children f q.limit _ hl
  have ho : (q.mapBelowM f s).1.offset = q.offset := option_eq_of_children f q.offset _ ho
  calc (q.mapBelowM f s).1
      _ = { q with
          tables := (q.mapBelowM f s).1.tables
          projection := (q.mapBelowM f s).1.projection
          predicate := (q.mapBelowM f s).1.predicate
          orderBy := (q.mapBelowM f s).1.orderBy
          limit := (q.mapBelowM f s).1.limit
          offset := (q.mapBelowM f s).1.offset } := rfl
      _ = q := by
        rw [ht, hp, hw, hk, hl, ho]
        cases q
        rfl

/-- Children that come out of a pass unchanged leave the query unchanged. -/
theorem Query.mapBelowM_of_children {q : Query} {s s' : σ}
    (h : q.children.mapM (Query.mapQueriesM f) s = (q.children, s')) : q.mapBelowM f s = (q, s') := by
  have heq : ((q.mapBelowM f s).1.children, (q.mapBelowM f s).2) = (q.children, s') :=
    (congrFun (Query.children_mapBelowM f q) s).trans h
  obtain ⟨hchildren, hstate⟩ := Prod.mk.inj heq
  exact Prod.ext (q.eq_of_children f s hchildren) hstate

theorem mapM_of_fixed {α : Type} {g : α → StateM σ α} {s : σ} : ∀ {xs : List α}, (∀ x ∈ xs, g x s = (x, s)) →
    xs.mapM g s = (xs, s)
  | [], _ => rfl
  | x :: xs, h => by
    rw [List.forall_mem_cons] at h
    have hrest := mapM_of_fixed h.2
    rw [List.mapM_cons]
    show ((g x s).1 :: (xs.mapM g (g x s).2).1, (xs.mapM g (g x s).2).2) = _
    rw [h.1, hrest]

/-- From a state in which every query is left alone nothing happens to a tree. -/
theorem Query.mapQueriesM_of_fixed {s : σ} (h : ∀ x, f x s = (x, s)) (q : Query) : q.mapQueriesM f s = (q, s) := by
  induction q using Query.induct with
  | h q ih =>
    have hbelow := Query.mapBelowM_of_children f (mapM_of_fixed ih)
    rw [Query.mapQueriesM_eq]
    show f (q.mapBelowM f s).1 (q.mapBelowM f s).2 = _
    rw [hbelow]
    exact h q

end Children

/-! ## The change to one query -/

namespace Edit

/-- Of the query around it an operation on the nested query leaves all but the table. -/
theorem onNested_eq {α : Type} (act : Edit α) (d : Draft) :
    ∃ tables, (stateOf (onNested act d)).query = { d.query with tables } := by
  unfold onNested
  split
  · rename_i c hc
    simp only
    rcases act { d with query := c } with ⟨a, inner⟩ | ⟨e, inner⟩
    · exact ⟨_, rfl⟩
    · exact ⟨_, rfl⟩
  · obtain ⟨q, s⟩ := d
    cases q
    exact ⟨_, rfl⟩

/-- The push-down comes first. If it fails nothing else is done, and once it is done the query has no
offset any more, also where a later change fails. -/
theorem replacePaging_cases (column : String) (d : Draft) :
    (∃ e d', pushDown d = .error e d' ∧ replacePaging column d = .error e d') ∨
      (∀ e d', pushDown d ≠ .error e d') ∧ (stateOf (replacePaging column d)).query.offset = none := by
  have hnested {α : Type} (act : Edit α) : Meets (·.offset = none) (onNested act) fun _ => True := by
    intro d h
    obtain ⟨tables, heq⟩ := onNested_eq act d
    rw [heq]
    exact ⟨h, rfl, fun _ _ _ => trivial⟩
  have hexpand (count : Option Nat) (q : Query) (h : q.offset = none) :
      (stateOf (Query.expandStarTo count q)).offset = none := by
    obtain ⟨slots, keys, starred, heq⟩ := q.expandStarTo_eq count
    rw [heq]
    exact h
  have hunordered :
      Meets (·.offset = none) (do if (← query).name.isSome then modifyQuery Query.unordered) fun _ => True :=
    .bind .query fun _ _ => .ite (.modifyQuery (fun _ h => h) fun _ => rfl) (.pure trivial)
  unfold replacePaging
  rw [query_bind]
  show (∃ e d', pushDown d = .error e d' ∧ EStateM.bind pushDown _ d = .error e d') ∨
    (∀ e d', pushDown d ≠ .error e d') ∧ (stateOf (EStateM.bind pushDown _ d)).query.offset = none
  unfold EStateM.bind
  rcases hpush : pushDown d with ⟨⟨⟩, d₁⟩ | ⟨e, d₁⟩
  · right
    constructor
    · intro e d' h
      cases h
    · obtain ⟨t, -, hpushed⟩ := pushDown_ok hpush
      obtain ⟨c, copies, added, hmoved⟩ := Query.pushedDown_moved hpushed
      have hoffset : d₁.query.offset = none := by rw [hmoved.parent]
      -- Whatever becomes of the rest, it brings no offset back.
      apply And.left
      apply Meets.bind (hnested _) (fun memo _ => ?_) d₁ hoffset
      · exact fun _ => True
      · refine .whenThen (.onQuery (hexpand _) (Query.expandStarTo_name _)) (.bind (hnested _) fun bounds _ => ?_)
        rcases Expr.conjunction bounds with _ | condition
        · exact hunordered
        · exact .bind (.modifyQuery (fun _ h => h) fun _ => rfl) fun _ _ => hunordered
  · left
    exact ⟨e, d₁, rfl, rfl⟩

end Edit

namespace PagingPass

variable {q : Query} {p : PagingPass}

/-- A push-down that fails ends the pass with the query as it was. -/
theorem step_of_pushDown_error {e : Error} {d : Draft} (hp : p.failure = none) (h : q.needsNumbering = true)
    (hd : Edit.pushDown ⟨q, p.session⟩ = .error e d) :
    step q p = (q, { p with session := d.session, named := p.named + 1, failure := some e }) := by
  rcases Edit.replacePaging_cases p.columnName ⟨q, p.session⟩ with ⟨e', d', hpush, hreplace⟩ | ⟨hpush, -⟩
  · rw [hpush] at hd
    cases hd
    have hquery : d.query = q := (Edit.atomic_pushDown _ _ _ hpush).1
    have hstep := step_of_error hp h hreplace
    rw [hquery] at hstep
    exact hstep
  · exact absurd hd (hpush e d)

theorem step_of_failed (hp : p.failure.isSome = true) (q : Query) : step q p = (q, p) := by
  unfold step
  rw [hp, Bool.true_or, if_pos rfl]

/-- After a push-down that is done there is no offset. -/
theorem step_offset (hp : p.failure = none) (h : q.needsNumbering = true)
    (hd : ∀ e d, Edit.pushDown ⟨q, p.session⟩ ≠ .error e d) : (step q p).1.offset = none := by
  rcases Edit.replacePaging_cases p.columnName ⟨q, p.session⟩ with ⟨e, d, hpush, -⟩ | ⟨-, hoffset⟩
  · exact absurd hpush (hd e d)
  · rcases hr : Edit.replacePaging p.columnName ⟨q, p.session⟩ with ⟨⟨⟩, d⟩ | ⟨e, d⟩
    · rw [hr] at hoffset
      have hstep : step q p = _ := step_of_ok hp h hr
      rw [hstep]
      exact hoffset
    · rw [hr] at hoffset
      have hstep : step q p = _ := step_of_error hp h hr
      rw [hstep]
      exact hoffset

/-- A query that a step changes had an offset and has none any more. -/
theorem step_eq_or (q : Query) (p : PagingPass) :
    (step q p).1 = q ∨ q.needsNumbering = true ∧ (step q p).1.offset = none := by
  by_cases hp : p.failure.isSome = true
  · rw [step_of_failed hp]
    exact .inl rfl
  · cases h : q.needsNumbering with
    | false =>
      rw [step_of_not_needed h]
      exact .inl rfl
    | true =>
      have hp : p.failure = none := by simpa using hp
      by_cases hd : ∃ e d, Edit.pushDown ⟨q, p.session⟩ = .error e d
      · obtain ⟨e, d, hd⟩ := hd
        rw [step_of_pushDown_error hp h hd]
        exact .inl rfl
      · push Not at hd
        exact .inr ⟨rfl, step_offset hp h hd⟩

end PagingPass

/-! ## The whole pass -/

theorem mapM_of_fixed_before {σ α : Type} {g : α → StateM σ α} {s : σ} {before after : List α} {x : α}
    (h : ∀ b ∈ before, g b s = (b, s)) : (before ++ x :: after).mapM g s =
      (before ++ (g x s).1 :: (after.mapM g (g x s).2).1, (after.mapM g (g x s).2).2) := by
  rw [List.mapM_append, List.mapM_cons]
  show ((before.mapM g s).1 ++ (g x (before.mapM g s).2).1 :: (after.mapM g (g x (before.mapM g s).2).2).1,
    (after.mapM g (g x (before.mapM g s).2).2).2) = _
  rw [mapM_of_fixed h]

namespace Query

/-- `x` is the query whose paging a pass over the tree replaces first: it needs numbering, and no query
does that the pass comes to before. -/
inductive FirstPaged (x : Query) : Query → Prop
  | root : (∀ y ∈ x.subqueries, y.needsNumbering = false) → x.needsNumbering = true → FirstPaged x x
  | child {q c : Query} {before after : List Query} : q.children = before ++ c :: after →
      (∀ b ∈ before, ∀ y ∈ b.queries, y.needsNumbering = false) → FirstPaged x c → FirstPaged x q

/-- Some query comes first, unless none needs numbering. -/
theorem firstPaged_or (q : Query) : (∀ y ∈ q.queries, y.needsNumbering = false) ∨ ∃ x, FirstPaged x q := by
  induction q using Query.induct with
  | h q ih =>
    rcases hfind : q.children.find? (fun c => c.queries.any needsNumbering) with _ | c
    · have hbelow : ∀ y ∈ q.subqueries, y.needsNumbering = false := by
        rw [subqueries_eq_flatMap, List.forall_mem_flatMap]
        simpa using hfind
      cases hq : q.needsNumbering with
      | false =>
        left
        rw [queries_eq, List.forall_mem_cons]
        exact ⟨hq, hbelow⟩
      | true => exact .inr ⟨q, .root hbelow hq⟩
    · -- The first child with such a query has the one that comes first.
      right
      obtain ⟨hc, before, after, hchildren, hbefore⟩ := List.find?_eq_some_iff_append.1 hfind
      have hmem : c ∈ q.children := by
        rw [hchildren]
        exact List.mem_append_right _ (List.mem_cons_self ..)
      rcases ih c hmem with hnone | ⟨x, hx⟩
      · obtain ⟨y, hy, hneeds⟩ := List.any_eq_true.1 hc
        rw [hnone y hy] at hneeds
        cases hneeds
      · exact ⟨x, .child hchildren (by simpa using hbefore) hx⟩

namespace FirstPaged

variable {x q : Query} {p : PagingPass}

theorem mapM_children {c : Query} {before after : List Query} (hchildren : q.children = before ++ c :: after)
    (hbefore : ∀ b ∈ before, ∀ y ∈ b.queries, y.needsNumbering = false) (p : PagingPass) :
    q.children.mapM (Query.mapQueriesM PagingPass.step) p =
      (before ++ (c.mapQueriesM PagingPass.step p).1 ::
          (after.mapM (Query.mapQueriesM PagingPass.step) (c.mapQueriesM PagingPass.step p).2).1,
        (after.mapM (Query.mapQueriesM PagingPass.step) (c.mapQueriesM PagingPass.step p).2).2) := by
  rw [hchildren]
  apply mapM_of_fixed_before
  intro b hb
  rw [Query.mapQueriesM_of_not_needed (hbefore b hb)]
  rfl

/-- If the first push-down fails the pass is over, and the tree is as before. -/
theorem kept {e : Error} {d : Draft} (h : FirstPaged x q) (hp : p.failure = none)
    (hd : Edit.pushDown ⟨x, p.session⟩ = .error e d) : q.mapQueriesM PagingPass.step p =
      (q, { p with session := d.session, named := p.named + 1, failure := some e }) := by
  induction h with
  | root hbelow hneeds =>
    rw [Query.mapQueriesM_of_pure fun y hy => PagingPass.step_of_not_needed (hbelow y hy)]
    exact PagingPass.step_of_pushDown_error hp hneeds hd
  | @child q c before after hchildren hbefore _ ih =>
    generalize hp' :
      ({ p with session := d.session, named := p.named + 1, failure := some e } : PagingPass) = p' at ih ⊢
    have hfailed : p'.failure.isSome = true := by rw [← hp']; rfl
    have hafter : after.mapM (Query.mapQueriesM PagingPass.step) p' = (after, p') :=
      mapM_of_fixed fun b _ => mapQueriesM_of_fixed _ (PagingPass.step_of_failed hfailed) b
    have hbelow : q.mapBelowM PagingPass.step p = (q, p') := by
      apply mapBelowM_of_children
      rw [mapM_children hchildren hbefore, ih, hafter, hchildren]
    rw [mapQueriesM_eq]
    show PagingPass.step (q.mapBelowM PagingPass.step p).1 (q.mapBelowM PagingPass.step p).2 = _
    rw [hbelow]
    exact PagingPass.step_of_failed hfailed q

/-- If the first push-down is done the tree is changed for good. -/
theorem changed (h : FirstPaged x q) (hp : p.failure = none)
    (hd : ∀ e d, Edit.pushDown ⟨x, p.session⟩ ≠ .error e d) : (q.mapQueriesM PagingPass.step p).1 ≠ q := by
  induction h with
  | root hbelow hneeds =>
    rw [Query.mapQueriesM_of_pure fun y hy => PagingPass.step_of_not_needed (hbelow y hy)]
    intro heq
    have hoffset := PagingPass.step_offset hp hneeds hd
    rw [heq] at hoffset
    rw [needsNumbering, hoffset] at hneeds
    cases hneeds
  | @child q c before after hchildren hbefore _ ih =>
    intro heq
    have hbelow : (q.mapBelowM PagingPass.step p).1.children ≠ q.children := by
      have hmap : (q.mapBelowM PagingPass.step p).1.children =
          (q.children.mapM (Query.mapQueriesM PagingPass.step) p).1 :=
        congrArg Prod.fst (congrFun (children_mapBelowM PagingPass.step q) p)
      rw [hmap, mapM_children hchildren hbefore, hchildren]
      intro hsame
      exact ih (List.cons.inj (List.append_cancel_left hsame)).1
    have hlast : (q.mapQueriesM PagingPass.step p).1 =
        (PagingPass.step (q.mapBelowM PagingPass.step p).1 (q.mapBelowM PagingPass.step p).2).1 := by
      rw [mapQueriesM_eq]
      rfl
    rw [hlast] at heq
    rcases PagingPass.step_eq_or (q.mapBelowM PagingPass.step p).1 (q.mapBelowM PagingPass.step p).2 with
      hstep | ⟨hneeds, hoffset⟩
    · rw [hstep] at heq
      exact hbelow (congrArg Query.children heq)
    · -- The last step took the offset out of the query, so it is not the one from before.
      have hpassed : PassedBelow PagingPass.step (fun _ => True) q (q.mapBelowM PagingPass.step p).1 :=
        mapBelowM_passed (fun _ _ _ => trivial) trivial
      rw [hpassed.needsNumbering, needsNumbering] at hneeds
      rw [heq] at hoffset
      rw [hoffset] at hneeds
      cases hneeds

end FirstPaged
end Query

/-- A failed pass leaves the tree as it was, with at most one name taken from the session, exactly if it
is the push-down of the first query with paging that fails. -/
theorem replacePaging_failed_iff {dialect : Dialect} {named : Nat} {q : Query} {s : Session} {e : Error}
    (h : (dialect.replacePaging named q s).result = .error e) :
    (dialect.replacePaging named q s).query = q ∧ s.Spent (dialect.replacePaging named q s).session ↔
      ∃ x d, x.FirstPaged q ∧ Edit.pushDown ⟨x, s⟩ = .error e d := by
  -- Without paging there is nothing to fail.
  rcases q.firstPaged_or with hnone | ⟨x, hx⟩
  · rw [Dialect.replacePaging_of_none hnone] at h
    cases h
  unfold Dialect.replacePaging at h ⊢
  by_cases hskip : (dialect.hasOffset || !dialect.hasWindows) = true
  · rw [if_pos hskip] at h
    cases h
  rw [if_neg hskip] at h ⊢
  constructor
  · rintro ⟨hquery, -⟩
    -- What fails is the first push-down, or the tree has been changed for good.
    by_cases hpush : ∃ e' d, Edit.pushDown ⟨x, s⟩ = .error e' d
    · obtain ⟨e', d, hpush⟩ := hpush
      have hrun : (q.mapQueriesM PagingPass.step).run { session := s, named } = _ := hx.kept rfl hpush
      rw [hrun] at h
      cases h
      exact ⟨x, d, hx, hpush⟩
    · push Not at hpush
      exact absurd hquery (hx.changed rfl hpush)
  · rintro ⟨y, d, hy, hpush⟩
    have hrun : (q.mapQueriesM PagingPass.step).run { session := s, named } = _ := hy.kept rfl hpush
    rw [hrun]
    exact ⟨rfl, (Edit.atomic_pushDown _ _ _ hpush).2⟩

/-- A member that no name stands for: the push-down cannot lift it. -/
theorem replacePaging_failed_at_member :
    let q : Query := {
      tables := [.base "People" none "p" (some ⟨1⟩)]
      projection := [.column "p" (some ⟨1⟩) "Name" .text]
      offset := some (.int 2)
      members := [("m", .star "p")] }
    let r := Dialect.withoutOffset.replacePaging 0 q {}
    r.result = .error (.unliftable "t" "p.*") ∧ r.query = q ∧ ({} : Session).Spent r.session := by
  intro q r
  have hrun : r.result = .error (.unliftable "t" "p.*") := by decide +kernel
  have hfirst : q.FirstPaged q := .root (by decide) (by decide)
  obtain ⟨d, hpush⟩ : ∃ d, Edit.pushDown ⟨q, {}⟩ = .error (.unliftable "t" "p.*") d := ⟨_, rfl⟩
  exact ⟨hrun, (replacePaging_failed_iff hrun).2 ⟨q, d, hfirst, hpush⟩⟩

/-- People with all their columns in one slot: the push-down is done by the time it turns out that no
name stands for the slot. -/
theorem replacePaging_failed_pushed_down :
    let q : Query := {
      tables := [.base "People" none "p" (some ⟨1⟩)]
      projection := [.star "p"]
      offset := some (.int 2) }
    let r := Dialect.withoutOffset.replacePaging 0 q {}
    r.result = .error (.unliftable "t" "p.*") ∧ r.query ≠ q := by
  intro q r
  have hpushed : r.query.starred = true := by decide +kernel
  refine ⟨by decide +kernel, fun h => ?_⟩
  rw [h] at hpushed
  cases hpushed

end QueryTree
