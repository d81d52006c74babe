/-
The paging pass over a composed tree without wildcards. It never fails, comes to each query that a walk enters
once all below it is treated, replaces the paging of those that need it and of no others, and counts them.
What it has made of a query is in the tree at the end, as it is or as an equal query: where a query further
out is pushed down, a sort key over it may give way to a slot of the same value.
-/
import QueryTree.Proofs.Paging.Injection
import QueryTree.Proofs.Paging.Kept

namespace QueryTree

/-! ## Counting the queries that a walk enters -/

/-- The walk enters a query of which `P` holds. -/
def WalkEvent.enters (P : Query → Bool) : WalkEvent → Bool
  | enter query => P query
  | _ => false

section Walk

open WalkEvent (enters)

variable (P : Query → Bool)

theorem countP_enter (q : Query) (events : List WalkEvent) :
    (events ++ [WalkEvent.enter q]).countP (enters P) = events.countP (enters P) + if P q then 1 else 0 := by
  rw [List.countP_append, List.countP_singleton]
  rfl

theorem countP_leave (q : Query) (events : List WalkEvent) :
    (events ++ [WalkEvent.leave q]).countP (enters P) = events.countP (enters P) := by
  rw [List.countP_append, List.countP_singleton]
  rfl

mutual

theorem Expr.countP_walk : ∀ (e : Expr) (events : List WalkEvent),
    (e.walk (recorder none) events).countP (enters P) = events.countP (enters P) + e.queries.countP P
  | .named _ inner, events => by
    rw [Expr.walk, if_neg (by simp [recorder]), Expr.countP_walk inner, Expr.queries]; simp [recorder, enters]
  | .rowNumber keys, events => by
    rw [Expr.walk, if_neg (by simp [recorder]), countP_walkKeys keys, Expr.queries]; simp [recorder, enters]
  | .cast operand _, events => by
    rw [Expr.walk, if_neg (by simp [recorder]), Expr.countP_walk operand, Expr.queries]; simp [recorder, enters]
  | .binary _ left right, events => by
    rw [Expr.walk, if_neg (by simp [recorder]), Expr.countP_walk right, Expr.countP_walk left, Expr.queries]
    simp [recorder, enters, Nat.add_assoc]
  | .not operand, events => by
    rw [Expr.walk, if_neg (by simp [recorder]), Expr.countP_walk operand, Expr.queries]; simp [recorder, enters]
  | .call _ args _, events => by
    rw [Expr.walk, if_neg (by simp [recorder]), countP_walkExprs args, Expr.queries]; simp [recorder, enters]
  | .exist query, events => by
    rw [Expr.walk, if_neg (by simp [recorder]), Query.countP_walk query, Expr.queries]; simp [recorder, enters]
  | .column .., events | .star _, events | .output .., events | .constant .., events | .parameter .., events => by
    rw [Expr.walk, if_neg (by simp [recorder]), Expr.queries]; simp [recorder, enters]

theorem Table.countP_walk : ∀ (t : Table) (events : List WalkEvent),
    (t.walk (recorder none) events).countP (enters P) = events.countP (enters P) + t.queries.countP P
  | .base .., events => by rw [Table.walk, Table.queries]; simp
  | .join _ target condition, events => by
    rw [Table.walk, countP_walkOption condition, Table.countP_walk target, Table.queries]; simp [Nat.add_assoc]
  | .nested query, events => by rw [Table.walk, Query.countP_walk query, Table.queries]

theorem Query.countP_walk : ∀ (q : Query) (events : List WalkEvent),
    (q.walk (recorder none) events).countP (enters P) = events.countP (enters P) + q.queries.countP P
  | ⟨tables, projection, predicate, orderBy, limit, offset, _, _, _, _, _, _⟩, events => by
    rw [Query.walk, if_neg (by simp [recorder]), Query.queries]
    simp only [recorder, countP_leave]
    rw [← recorder, countP_walkOption offset, countP_walkOption limit, countP_walkKeys orderBy,
      countP_walkOption predicate, countP_walkTables tables, countP_walkExprs projection, countP_enter]
    simp only [List.countP_append, List.countP_cons]
    omega

theorem countP_walkExprs : ∀ (es : List Expr) (events : List WalkEvent),
    (walkExprs (recorder none) es events).countP (enters P) = events.countP (enters P) + (exprQueries es).countP P
  | [], events => by rw [walkExprs, exprQueries]; simp
  | e :: es, events => by
    rw [walkExprs, countP_walkExprs es, Expr.countP_walk e, exprQueries]; simp [Nat.add_assoc]

theorem countP_walkOption : ∀ (e : Option Expr) (events : List WalkEvent),
    (walkOption (recorder none) e events).countP (enters P) = events.countP (enters P) + (optionQueries e).countP P
  | none, events => by rw [walkOption, optionQueries]; simp
  | some e, events => by rw [walkOption, Expr.countP_walk e, optionQueries]

theorem countP_walkKeys : ∀ (keys : List OrderKey) (events : List WalkEvent),
    (walkKeys (recorder none) keys events).countP (enters P) = events.countP (enters P) + (keyQueries keys).countP P
  | [], events => by rw [walkKeys, keyQueries]; simp
  | ⟨e, _⟩ :: keys, events => by
    rw [walkKeys, countP_walkKeys keys, Expr.countP_walk e, keyQueries]; simp [Nat.add_assoc]

theorem countP_walkTables : ∀ (ts : List Table) (events : List WalkEvent),
    (walkTables (recorder none) ts events).countP (enters P) = events.countP (enters P) + (tableQueries ts).countP P
  | [], events => by rw [walkTables, tableQueries]; simp
  | t :: ts, events => by
    rw [walkTables, countP_walkTables ts, Table.countP_walk t, tableQueries]; simp [Nat.add_assoc]

end

/-- A walk to the end enters each query of a tree once. -/
theorem Query.countP_events (q : Query) : (q.events none).countP (enters P) = q.queries.countP P := by
  rw [Query.events, Query.countP_walk, List.countP_nil, Nat.zero_add]

end Walk

/-! ## Queries that the pass has treated below -/

section Below

variable {σ : Type} {f : Query → StateM σ Query} {ok : σ → Prop}

theorem Expr.isStar_unnamed_mapQueriesM : ∀ (e : Expr) (s : σ), (e.mapQueriesM f s).1.unnamed.isStar = e.unnamed.isStar
  | .named _ inner, s => Expr.isStar_unnamed_mapQueriesM inner s
  | .column .., _ | .star _, _ | .output .., _ | .constant .., _ | .parameter .., _ | .rowNumber _, _ | .cast .., _
  | .binary .., _ | .not _, _ | .call .., _ | .exist _, _ => rfl

/-- A pass makes no wildcards. -/
theorem Query.PassedBelow.liftable {q q' : Query} (h : Query.PassedBelow f ok q q') (hq : q.Liftable) :
    q'.Liftable := by
  have hkept : ∀ {es es' : List Expr}, List.Forall₂ (Expr.Passed f) es es' → (∀ e ∈ es, e.unnamed.isStar = false) →
      ∀ e' ∈ es', e'.unnamed.isStar = false := by
    intro es es' hpassed hes e' he'
    obtain ⟨e, he, s, rfl⟩ := forall₂_mem_left hpassed.flip he'
    rw [Expr.isStar_unnamed_mapQueriesM]
    exact hes e he
  have hmembers : q'.members = q.members := by rw [h.same]
  obtain ⟨hprojection, hcarried⟩ := List.forall_mem_append.1 hq.noStar
  obtain ⟨hkeys, hterms⟩ := List.forall_mem_append.1 hcarried
  constructor
  · rw [Query.carried, hmembers]
    exact List.forall_mem_append.2 ⟨hkept h.projection hprojection,
      List.forall_mem_append.2 ⟨hkept h.orderBy hkeys, hterms⟩⟩
  · rw [show q'.memo = q.memo by rw [h.same]]
    exact hq.memo

end Below

/-! ## One query of the pass -/

namespace PagingPass

variable {p p' p'' : PagingPass} {q : Query} {m n : Nat}

/-- Nothing has ended the pass, and there are names to be had for what it pushes down. -/
structure Able (p : PagingPass) : Prop where
  goes : p.Goes
  stem : p.session.settings.subqueryStem ≠ ""

/-- From one state of the pass to the other the paging of `n` queries is replaced, and nothing fails. -/
structure Advances (n : Nat) (p p' : PagingPass) : Prop where
  goes : p'.Goes
  settings : p'.session.settings = p.session.settings
  replaced : p'.replaced = p.replaced + n

theorem Advances.able (h : Advances n p p') (hp : p.Able) : p'.Able := by
  refine ⟨h.goes, ?_⟩
  rw [h.settings]
  exact hp.stem

theorem Able.advances_zero (hp : p.Able) : Advances 0 p p := ⟨hp.goes, rfl, rfl⟩

theorem Advances.trans (h : Advances m p p') (h' : Advances n p' p'') : Advances (m + n) p p'' := by
  refine ⟨h'.goes, h'.settings.trans h.settings, ?_⟩
  rw [h'.replaced, h.replaced, Nat.add_assoc]

theorem step_numbers (hq : q.Liftable) (hp : p.Able) (hneeds : q.needsNumbering = true) : ∃ rows d,
    Edit.rowsToNumber ⟨q, p.session⟩ = .ok rows d ∧ (step q p).1.PagedByNumber (numberingKeys rows.orderBy) ∧
      Advances 1 p (step q p).2 := by
  obtain ⟨r, s', rows, d, hrun, hsettings, hrows, hpaged⟩ :=
    Edit.replacePaging_exists p.columnName hq hp.stem
  have hstep : step q p = _ := step_of_ok hp.goes hneeds hrun
  rw [hstep]
  exact ⟨rows, d, hrows, hpaged, hp.goes, hsettings, rfl⟩

theorem step_advances (hq : q.Liftable) (hp : p.Able) :
    Advances (if q.needsNumbering then 1 else 0) p (step q p).2 := by
  cases hneeds : q.needsNumbering with
  | false =>
    rw [step_of_not_needed hneeds]
    exact hp.advances_zero
  | true =>
    obtain ⟨rows, d, -, -, hadvances⟩ := step_numbers hq hp hneeds
    exact hadvances

end PagingPass

/-! ## Runs of the pass -/

namespace Query

open PagingPass (Able Advances Goes step)

variable {p : PagingPass} {q : Query}

theorem mapM_advances : ∀ {cs : List Query} {p : PagingPass},
    (∀ c ∈ cs, ∀ p : PagingPass, p.Able → Advances (c.queries.countP needsNumbering) p (c.mapQueriesM step p).2) →
      p.Able → Advances ((cs.flatMap queries).countP needsNumbering) p (cs.mapM (mapQueriesM step) p).2
  | [], _, _, hp => hp.advances_zero
  | c :: cs, p, h, hp => by
    obtain ⟨hc, hcs⟩ := List.forall_mem_cons.1 h
    have hfirst := hc p hp
    have hrest := mapM_advances hcs (hfirst.able hp)
    have hcons : (c :: cs).mapM (mapQueriesM step) p =
        ((c.mapQueriesM step p).1 :: (cs.mapM (mapQueriesM step) (c.mapQueriesM step p).2).1,
          (cs.mapM (mapQueriesM step) (c.mapQueriesM step p).2).2) := by
      rw [List.mapM_cons]
      rfl
    rw [hcons, List.flatMap_cons, List.countP_append]
    exact hfirst.trans hrest

/-- What a pass has done once all below a query is treated. -/
theorem mapBelowM_advances
    (h : ∀ c ∈ q.children, ∀ p : PagingPass, p.Able →
      Advances (c.queries.countP needsNumbering) p (c.mapQueriesM step p).2)
    (hp : p.Able) : Advances (q.subqueries.countP needsNumbering) p (q.mapBelowM step p).2 ∧
      PassedBelow step Goes q (q.mapBelowM step p).1 := by
  have hstate : (q.mapBelowM step p).2 = (q.children.mapM (mapQueriesM step) p).2 :=
    congrArg Prod.snd (congrFun (children_mapBelowM step q) p)
  have hadvances : Advances (q.subqueries.countP needsNumbering) p (q.mapBelowM step p).2 := by
    rw [hstate, subqueries_eq_flatMap]
    exact mapM_advances h hp
  exact ⟨hadvances, mapBelowM_passed PagingPass.goes_back hadvances.goes⟩

/-- The pass replaces the paging of as many queries of the tree as need it, and does not fail. -/
theorem mapQueriesM_advances (q : Query) : (∀ x ∈ q.queries, x.Liftable) → ∀ {p : PagingPass}, p.Able →
    Advances (q.queries.countP needsNumbering) p (q.mapQueriesM step p).2 := by
  induction q using Query.induct with
  | h q ih =>
    intro hq p hp
    obtain ⟨hroot, hchildren⟩ := forall_mem_queries.1 hq
    obtain ⟨hbelow, hpassed⟩ := mapBelowM_advances (p := p) (fun c hc p hp => ih c hc (hchildren c hc) hp) hp
    have hstep := PagingPass.step_advances (hpassed.liftable hroot) (hbelow.able hp)
    rw [hpassed.needsNumbering] at hstep
    rw [mapQueriesM_eq, queries_eq, List.countP_cons]
    exact hbelow.trans hstep

section Visits

variable {x : Query} {p₀ : PagingPass}

/-- Wherever the pass comes to there are names to be had. -/
theorem Visits.able (h : Visits step x p q p₀) : (∀ y ∈ q.queries, y.Liftable) → p₀.Able → p.Able := by
  induction h with
  | @root q p₀ hbelow =>
    intro hq hp₀
    obtain ⟨-, hchildren⟩ := forall_mem_queries.1 hq
    have hadvances := (mapBelowM_advances (fun c hc _ hp => mapQueriesM_advances c (hchildren c hc) hp) hp₀).1
    rw [hbelow] at hadvances
    exact hadvances.able hp₀
  | @child q c before after p₀ hchildren _ ih =>
    intro hq hp₀
    obtain ⟨-, hbelow⟩ := forall_mem_queries.1 hq
    rw [Below, hchildren, List.forall_mem_append, List.forall_mem_cons] at hbelow
    obtain ⟨hbefore, hc, -⟩ := hbelow
    exact ih hc ((mapM_advances (fun c hc _ hp => mapQueriesM_advances c (hbefore c hc) hp) hp₀).able hp₀)

end Visits

theorem within_of_mem_queries {x : Query} (q : Query) : x ∈ q.queries → x.Within q := by
  induction q using Query.induct with
  | h q ih =>
    intro hx
    rcases mem_queries_iff.1 hx with rfl | ⟨c, hc, hx⟩
    · exact .root
    · exact .part (List.mem_append_left _ (List.mem_append_left _ hc)) (ih c hc hx)

end Query

open PagingPass (Goes step)

/-- Over a composed tree without wildcards, and with names to be had, the pass succeeds. It answers with the number
of queries entered that have an offset and no row number, comes to each query once all below it is treated, leaves
those that need no numbering as they are, and makes bounds on a row number of the paging of the others. What it has
made of a query is there at the end. -/
theorem replacePaging_numbers_exactly {dialect : Dialect} (hwithout : dialect.hasOffset = false)
    (hwindows : dialect.hasWindows = true) {named : Nat} {q : Query} {s : Session} (hq : q.Composed)
    (hstar : ∀ x, .enter x ∈ q.events none → ∀ e ∈ x.projection ++ x.carried, e.unnamed.isStar = false)
    (hstem : s.settings.subqueryStem ≠ "") :
    (dialect.replacePaging named q s).result = .ok ((q.events none).countP (WalkEvent.enters Query.needsNumbering)) ∧
      (∀ x₀, .enter x₀ ∈ q.events none →
        ∃ x p, Query.Visits step x p q { session := s, named } ∧ Query.PassedBelow step Goes x₀ x) ∧
      ∀ x p, Query.Visits step x p q { session := s, named } →
        (∃ x₀, .enter x₀ ∈ q.events none ∧ Query.PassedBelow step Goes x₀ x ∧ x.needsNumbering = x₀.needsNumbering) ∧
        (x.needsNumbering = false → (step x p).1 = x) ∧
        (x.needsNumbering = true → ∃ rows d, Edit.rowsToNumber ⟨x, p.session⟩ = .ok rows d ∧
          (step x p).1.PagedByNumber (numberingKeys rows.orderBy)) ∧
        ∃ y, .enter y ∈ (dialect.replacePaging named q s).query.events none ∧
          (y = (step x p).1 ∨ y.beq (step x p).1 = true) := by
  simp only [Query.enter_mem_events, Query.countP_events] at hstar ⊢
  have hliftable : ∀ x ∈ q.queries, x.Liftable := fun x hx =>
    ⟨hstar x hx, (hq.sound x (Query.within_of_mem_queries q hx)).memo⟩
  have hable : ({ session := s, named } : PagingPass).Able := ⟨rfl, hstem⟩
  -- No query fails, and each that needs numbering counts once.
  have hadvances := q.mapQueriesM_advances hliftable hable
  refine ⟨?_, q.visits_exists PagingPass.goes_back hadvances.goes, fun x p hvisits => ?_⟩
  · unfold Dialect.replacePaging
    rw [hwithout, hwindows, if_neg (by decide)]
    rcases hrun : q.mapQueriesM step { session := s, named } with ⟨r, p⟩
    rw [hrun] at hadvances
    have hfailure : p.failure = none := hadvances.goes
    have hcount : p.replaced = q.queries.countP Query.needsNumbering := by
      rw [hadvances.replaced, Nat.zero_add]
    simp only [StateT.run, hrun, hfailure, hcount]
  · obtain ⟨x₀, hx₀, hpassed⟩ := hvisits.reached PagingPass.goes_back hadvances.goes
    refine ⟨⟨x₀, hx₀, hpassed, hpassed.needsNumbering⟩, fun hneeds => ?_, fun hneeds => ?_, ?_⟩
    · rw [PagingPass.step_of_not_needed hneeds]
      rfl
    · obtain ⟨rows, d, hrows, hpaged, -⟩ :=
        PagingPass.step_numbers (hpassed.liftable (hliftable x₀ hx₀)) (hvisits.able hliftable hable) hneeds
      exact ⟨rows, d, hrows, hpaged⟩
    · rw [Dialect.replacePaging_query hwithout hwindows]
      exact hvisits.has hadvances.goes

/-- A page of different people, and beside it a page of orders under EXISTS. The people are numbered above the
DISTINCT query, in the order of its sort key. -/
theorem replacePaging_numbers_exactly_distinct :
    let age := Expr.column "p" (some ⟨1⟩) "Age" .int32
    let people : Query := {
      tables := [.base "People" none "p" (some ⟨1⟩)]
      projection := [.column "p" (some ⟨1⟩) "Name" .text]
      orderBy := [⟨age, .desc⟩]
      limit := some (.int 10)
      offset := some (.int 20)
      distinct := true
      name := some "t" }
    let orders : Query := { tables := [.base "Orders" none "o" (some ⟨2⟩)], offset := some (.int 1) }
    let q : Query := { tables := [.nested people], predicate := some (.exist orders) }
    q.Composed ∧ (∀ x, .enter x ∈ q.events none → ∀ e ∈ x.projection ++ x.carried, e.unnamed.isStar = false) ∧
      (Dialect.withoutOffset.replacePaging 0 q {}).result = .ok 2 ∧
      ∃ x p, Query.Visits step x p q { session := {}, named := 0 } ∧ x.distinct = true ∧
        ∃ rows d, Edit.rowsToNumber ⟨x, p.session⟩ = .ok rows d ∧
          (step x p).1.PagedByNumber (numberingKeys rows.orderBy) := by
  intro age people orders q
  have hpeople : people.Composed :=
    (Query.Composed.fresh (some "t")).apply (.appendTable (.base "People" none "p" (some ⟨1⟩)))
      |>.apply (.project (.column "p" (some ⟨1⟩) "Name" .text) true)
      |>.apply (.orderAlso ⟨age, .desc⟩)
      |>.apply (.distinctRows true)
      |>.apply (.startAfter (some (.int 20)))
      |>.apply (.limitTo (some (.int 10)))
  have horders : orders.Composed :=
    (Query.Composed.fresh none).apply (.appendTable (.base "Orders" none "o" (some ⟨2⟩)))
      |>.apply (.startAfter (some (.int 1)))
  have hq : q.Composed := (Query.Composed.fresh none).applyTo (.appendTable (.nested people)) hpeople
    |>.applyTo (.restrict (.exist orders)) horders
  have hstar : ∀ x, .enter x ∈ q.events none → ∀ e ∈ x.projection ++ x.carried, e.unnamed.isStar = false := by
    simp only [Query.enter_mem_events]
    decide
  obtain ⟨hresult, hvisited, hvisits⟩ :=
    @replacePaging_numbers_exactly .withoutOffset rfl rfl 0 q {} hq hstar (by decide)
  have hentered : .enter people ∈ q.events none := by
    rw [Query.enter_mem_events, Query.mem_queries_iff]
    exact .inr ⟨people, List.mem_cons_self .., Query.self_mem_queries people⟩
  obtain ⟨x, p, hx, hpassed⟩ := hvisited people hentered
  have hneeds : x.needsNumbering = true := hpassed.needsNumbering
  have hdistinct : x.distinct = true := by rw [hpassed.same]
  exact ⟨hq, hstar, hresult.trans (by decide), x, p, hx, hdistinct, (hvisits x p hx).2.2.1 hneeds⟩

end QueryTree
