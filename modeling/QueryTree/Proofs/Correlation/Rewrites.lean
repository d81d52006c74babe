/-
References after push-down and after the paging pass. The pass treats a query over children that find
as much as before and lead out nowhere new, and so does what it makes of the query itself: no
reference leads out of a tree that did not ahead of it.
-/
import QueryTree.Proofs.Correlation.Closed
import QueryTree.Proofs.Paging.Pass

namespace QueryTree

/-! ## What a pass leaves of references -/

section Passed

variable {σ : Type} {f : Query → StateM σ Query} {ok : σ → Prop}

namespace Expr.Passed

variable {e e' x : Expr}

theorem operands (h : Expr.Passed f e e') : List.Forall₂ (Expr.Passed f) e.operands e'.operands := by
  obtain ⟨s, rfl⟩ := h
  cases e with
  | named | cast | not => exact .cons ⟨s, rfl⟩ .nil
  | binary => exact .cons ⟨s, rfl⟩ (.cons ⟨_, rfl⟩ .nil)
  | rowNumber keys => exact forall₂_keysMapQueriesM keys s
  | call function args type => exact forall₂_exprsMapQueriesM args s
  | _ => exact .nil

theorem eq_of_isReference (h : Expr.Passed f e e') (he : e'.isReference = true) : e = e' := by
  obtain ⟨s, rfl⟩ := h
  cases e <;> first | rfl | cases he

/-- A reference in an expression was there before. -/
theorem partOf (h : Expr.Passed f e e') (hx : x.isReference = true) (hpart : x.PartOf e') : x.PartOf e := by
  induction hpart generalizing e with
  | self =>
    rw [h.eq_of_isReference hx]
    exact .self
  | operand ho _ ih =>
    obtain ⟨o, ho, hpassed⟩ := forall₂_mem_left h.operands.flip ho
    exact .operand ho (ih hpassed)

end Expr.Passed

theorem Table.conditions_mapQueriesM : ∀ (t : Table) (s : σ),
    List.Forall₂ (Expr.Passed f) t.conditions (t.mapQueriesM f s).1.conditions
  | .base .., _ | .nested _, _ => .nil
  | .join _ target condition, s =>
    List.rel_append (Table.conditions_mapQueriesM target s) (forall₂_optionMapQueriesM condition _)

theorem Table.Passed.conditions {t t' : Table} (h : Table.Passed f ok t t') :
    List.Forall₂ (Expr.Passed f) t.conditions t'.conditions := by
  obtain ⟨s, rfl, -⟩ := h
  exact Table.conditions_mapQueriesM t s

theorem Table.Passed.subsumes (hback : ∀ q s, ok (f q s).2 → ok s) : ∀ {t t' : Table},
    (∀ c ∈ t.children, ∀ {c'}, Query.Passed f ok c c' → c'.name = c.name ∧ c'.Subsumes c) →
      Table.Passed f ok t t' → t'.Subsumes t
  | .base .., _, _, ⟨_, rfl, _⟩ => .refl _
  | .join _ target condition, _, hchildren, ⟨s, rfl, h⟩ => by
    have htarget : Table.Passed f ok target (target.mapQueriesM f s).1 :=
      ⟨s, rfl, (passed_of_children hback (children_optionMapQueriesM f condition) _ h).1⟩
    obtain ⟨hserves, hmentions⟩ :=
      Table.Passed.subsumes hback (fun c hc => hchildren c (List.mem_append_left _ hc)) htarget
    exact ⟨hserves, hmentions⟩
  | .nested q, _, hchildren, ⟨s, rfl, h⟩ => by
    obtain ⟨hname, hsubsumes⟩ := hchildren q (List.mem_singleton_self _) ⟨s, rfl, h⟩
    refine ⟨hsubsumes.serves, fun name => ?_⟩
    change (q.name == some name || q.mentions name) = true →
      ((q.mapQueriesM f s).1.name == some name || (q.mapQueriesM f s).1.mentions name) = true
    rw [hname, Bool.or_eq_true, Bool.or_eq_true]
    exact Or.imp_right (hsubsumes.mentions name)

namespace Query.PassedBelow

variable {q q' : Query} {scopes : List Query}

theorem slots (h : Query.PassedBelow f ok q q') : List.Forall₂ (Expr.Passed f) q.slots q'.slots :=
  List.rel_append (List.rel_flatMap h.tables fun _ _ ht => ht.conditions) <|
    List.rel_append (List.rel_append (List.rel_append (List.rel_append h.projection h.predicate) h.orderBy) h.limit)
      h.offset

theorem subsumes (hback : ∀ q s, ok (f q s).2 → ok s) (h : Query.PassedBelow f ok q q')
    (hchildren : ∀ c ∈ q.children, ∀ {c'}, Query.Passed f ok c c' → c'.name = c.name ∧ c'.Subsumes c) :
    q'.Subsumes q := by
  refine .of_tables fun t ht => ?_
  obtain ⟨t', ht', hpassed⟩ := forall₂_mem_left h.tables ht
  exact ⟨t', ht', hpassed.subsumes hback fun c hc =>
    hchildren c (List.mem_append_left _ (List.mem_flatMap.2 ⟨t, ht, hc⟩))⟩

/-- The slots refer to what they did, and this is found as it was. -/
theorem closed (h : Query.PassedBelow f ok q q') (hsubsumes : q'.Subsumes q)
    (hchildren : ∀ c ∈ q.children, ∀ {c'}, Query.Passed f ok c c' → ∀ scopes, c.ClosedIn scopes → c'.ClosedIn scopes)
    (hq : q.ClosedIn scopes) : q'.ClosedIn scopes := by
  have hsub : ScopesSubsume (q' :: scopes) (q :: scopes) := (ScopesSubsume.refl scopes).cons hsubsumes
  rw [ClosedIn, leadsOut_iff] at hq ⊢
  rintro (⟨slot', hslot', x, hx, hout⟩ | ⟨c', hc', hout⟩)
  · obtain ⟨slot, hslot, hpassed⟩ := forall₂_mem_left h.slots.flip hslot'
    exact hq (.inl ⟨slot, hslot, x, Expr.Passed.partOf hpassed hout.1 hx, hsub x hout⟩)
  · obtain ⟨c, hc, hpassed⟩ := forall₂_mem_left h.children.flip hc'
    have hclosed : c.ClosedIn (q :: scopes) := fun hc' => hq (.inr ⟨c, hc, hc'⟩)
    exact hchildren c hc hpassed _ (hclosed.mono hsub) hout

end Query.PassedBelow

end Passed

/-! ## The pass -/

/-- The pass leaves of a query one of its name that finds as much and leads out nowhere new. -/
theorem Query.closed_of_passed (q : Query) : (∀ x ∈ q.queries, x.members = []) → ∀ {r : Query},
    Passed PagingPass.step PagingPass.Goes q r →
      r.name = q.name ∧ r.Subsumes q ∧ ∀ scopes, q.ClosedIn scopes → r.ClosedIn scopes := by
  induction q using Query.induct with
  | h q ih =>
    intro hmembers r h
    obtain ⟨q', hpassed, htreated⟩ := h.treated
    obtain ⟨hm, hbelow⟩ := forall_mem_queries.1 hmembers
    have hsubsumes : q'.Subsumes q := hpassed.subsumes PagingPass.goes_back fun c hc _ hp =>
      ⟨(ih c hc (hbelow c hc) hp).1, (ih c hc (hbelow c hc) hp).2.1⟩
    have hclosed (scopes : List Query) (hq : q.ClosedIn scopes) : q'.ClosedIn scopes :=
      hpassed.closed hsubsumes (fun c hc _ hp => (ih c hc (hbelow c hc) hp).2.2) hq
    have hname : q'.name = q.name := by rw [hpassed.same]
    -- Only then is `q` itself treated, over children that are as they should be.
    cases htreated with
    | kept _ => exact ⟨hname, hsubsumes, hclosed⟩
    | replaced hneeds hd =>
      obtain ⟨w⟩ := Edit.replacement_of_ok hd
      have hoffset : q'.offset.isSome = true := (needsNumbering_iff.1 hneeds).1
      have hm' : q'.members = [] := by rw [hpassed.same]; exact hm
      exact ⟨w.name.trans hname, w.subsumes.trans hsubsumes, fun scopes hq => w.closed hoffset hm' (hclosed scopes hq)⟩

/-! ## Both rewrites -/

namespace Query

theorem hasOuterReference_eq_false_iff {q : Query} : q.hasOuterReference = false ↔ q.ClosedIn [] := by
  rw [ClosedIn, ← hasOuterReference_iff_leadsOut, Bool.not_eq_true]

variable {q : Query}

theorem closed_of_pushDown {s : Session} {d : Draft} (hm : q.members = []) (hq : q.ClosedIn [])
    (h : Edit.pushDown ⟨q, s⟩ = .ok () d) : d.query.ClosedIn [] := by
  obtain ⟨t, -, hpushed⟩ := Edit.pushDown_ok h
  obtain ⟨c, copies, added, hmoved⟩ : ∃ c copies added, Moved t q d.query c copies added := pushedDown_moved hpushed
  exact hmoved.closed hm hq

theorem closed_of_replacePaging {dialect : Dialect} {named n : Nat} {s : Session}
    (hm : ∀ x ∈ q.queries, x.members = []) (hq : q.ClosedIn [])
    (h : (dialect.replacePaging named q s).result = .ok n) : (dialect.replacePaging named q s).query.ClosedIn [] := by
  by_cases hd : dialect.hasOffset = false ∧ dialect.hasWindows = true
  · exact (q.closed_of_passed hm (Dialect.passed_of_ok hd.1 hd.2 h)).2.2 [] hq
  · -- Any other dialect has no need of the pass.
    have hskip : (dialect.hasOffset || !dialect.hasWindows) = true := by
      revert hd; cases dialect.hasOffset <;> cases dialect.hasWindows <;> simp
    rw [Dialect.replacePaging, if_pos hskip]
    exact hq

/-- No reference leads out of a tree after a push-down of its root, or after a paging pass, if none did
before and the tree has no members: these are not walked, and a push-down makes slots of them. -/
theorem rewrites_keep_closed (hm : ∀ x, .enter x ∈ q.events none → x.members = []) (h : q.hasOuterReference = false) :
    (∀ s d, Edit.pushDown ⟨q, s⟩ = .ok () d → d.query.hasOuterReference = false) ∧
      ∀ (dialect : Dialect) named s n, (dialect.replacePaging named q s).result = .ok n →
        (dialect.replacePaging named q s).query.hasOuterReference = false := by
  simp only [enter_mem_events] at hm
  simp only [hasOuterReference_eq_false_iff] at h ⊢
  exact ⟨fun s d hd => closed_of_pushDown (hm q q.self_mem_queries) h hd,
    fun dialect named s n hn => closed_of_replacePaging hm h hn⟩

/-- A page of people with an order, which is a page by the people it looks for: both are rewritten, and go
on to refer from one to the other. -/
theorem rewrites_keep_closed_page :
    let order : Query := {
      tables := [.base "Orders" none "o" (some ⟨2⟩)]
      predicate := some (.binary .equal (.column "o" (some ⟨2⟩) "PersonId" .int32) (.column "p" (some ⟨1⟩) "Id" .int32))
      orderBy := [⟨.column "p" (some ⟨1⟩) "Name" .text, .asc⟩]
      offset := some (.int 1) }
    let q : Query := {
      tables := [.base "People" none "p" (some ⟨1⟩)]
      projection := [.named "Name" (.column "p" (some ⟨1⟩) "Name" .text)]
      predicate := some (.exist order)
      orderBy := [⟨.column "p" (some ⟨1⟩) "Age" .int32, .desc⟩]
      limit := some (.int 5)
      offset := some (.int 10)
      distinct := true }
    let pushed := Edit.pushDown ⟨q, {}⟩
    let paged := Dialect.withoutOffset.replacePaging 0 q {}
    order.hasOuterReference = true ∧ (∀ x, .enter x ∈ q.events none → x.members = []) ∧
      q.hasOuterReference = false ∧ (∃ d, pushed = .ok () d ∧ d.query.hasOuterReference = false) ∧
      paged.result = .ok 2 ∧ paged.query.hasOuterReference = false := by
  intro order q pushed paged
  have hm : ∀ x, .enter x ∈ q.events none → x.members = [] := by simp only [enter_mem_events]; decide +kernel
  have hq : q.hasOuterReference = false := by decide +kernel
  obtain ⟨d, hd⟩ : ∃ d, pushed = .ok () d := ⟨_, rfl⟩
  have hn : paged.result = .ok 2 := by decide +kernel
  obtain ⟨hpushed, hpaged⟩ := rewrites_keep_closed hm hq
  exact ⟨by decide +kernel, hm, hq, ⟨d, hd, hpushed {} d hd⟩, hn, hpaged .withoutOffset 0 {} 2 hn⟩

/-- A member that leads out does so for the walk once it is a slot. -/
example :
    let q : Query := {
      tables := [.base "People" none "p" none]
      projection := [.column "p" none "Id" .int32]
      members := [("City", .column "a" none "City" .text)] }
    q.hasOuterReference = false ∧ ∃ d, Edit.pushDown ⟨q, {}⟩ = .ok () d ∧ d.query.hasOuterReference = true :=
  ⟨by decide +kernel, _, rfl, by decide +kernel⟩

end Query

end QueryTree
