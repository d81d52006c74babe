/-
OFFSET after the paging pass. The pass treats the queries that a walk enters, and a push-down moves
the members of a query, which no walk sees, into slots of the nested query. So the pass leaves no
offset without a row number, and finds nothing to do a second time, exactly if no member of a query
that it numbers holds a query that needs numbering itself.
-/
import QueryTree.Proofs.Paging.Pass
import QueryTree.Proofs.Paging.Placement

namespace QueryTree

/-! ## Trees without work for the pass -/

/-- No query of the tree needs its rows numbered. -/
def Query.Settled (q : Query) : Prop := ∀ x ∈ q.queries, x.needsNumbering = false

/-- No query under EXISTS in the expression does. -/
abbrev Expr.Settled (e : Expr) : Prop := e.Below Query.Settled

instance (q : Query) : Decidable q.Settled := inferInstanceAs (Decidable (∀ x ∈ q.queries, x.needsNumbering = false))

instance (e : Expr) : Decidable e.Settled := inferInstanceAs (Decidable (∀ c ∈ e.children, c.Settled))

namespace Query

theorem settled_iff (q : Query) : q.Settled ↔ q.needsNumbering = false ∧ q.Below Settled := forall_mem_queries

theorem settled_of_beq (q : Query) : ∀ r : Query, q.beq r = true → (q.Settled ↔ r.Settled) := by
  induction q using Query.induct with
  | h q ih =>
    intro r h
    rw [settled_iff, settled_iff, needsNumbering_of_beq h]
    exact and_congr_right fun _ => forall_iff_of_forall₂ (children_of_beq h) ih

end Query

namespace Expr

theorem settled_of_equiv {a b : Expr} (h : a.equiv b = true) : a.Settled ↔ b.Settled :=
  forall_iff_of_forall₂ (children_of_equiv h) fun c _ d hcd => c.settled_of_beq d hcd

/-- The pass leaves an expression alone that holds no work for it. -/
theorem Passed.eq_of_settled {e e' : Expr} (h : Passed PagingPass.step e e') (hs : e.Settled) : e' = e := by
  obtain ⟨s, rfl⟩ := h
  have hqueries : ∀ x ∈ e.queries, x.needsNumbering = false := forall_mem_queries.2 hs
  rw [mapQueriesM_of_pure fun x hx => PagingPass.step_of_not_needed (hqueries x hx)]
  rfl

end Expr

/-! ## One query -/

namespace Query

theorem needsNumbering_of_no_offset {q : Query} (h : q.offset = none) : q.needsNumbering = false := by
  rw [needsNumbering, h]; rfl

theorem Isolated.settled_iff {c n : Query} (h : Isolated c n) (hm : c.members = []) :
    n.Below Settled ↔ c.Below Settled := by
  cases h with
  | plain _ => exact Iff.rfl
  | @distinct u m e copies added slots _ _ hmoved hfixed =>
    have he := hmoved.below_iff settled_of_beq
    have hneeds : e.needsNumbering = false := needsNumbering_of_no_offset (by rw [hmoved.child])
    have htable : (∀ t ∈ [Table.nested e], t.Below Settled) ↔ e.Below Settled := by
      simp [Table.Below, Table.children, Query.settled_iff, hneeds]
    have hslots : ∀ slot ∈ slots, slot.Settled := hfixed.below
    have hkeys : ∀ k ∈ m.orderBy, k.expr.Settled := hmoved.below_keys
    simp only [below_iff, hm] at he ⊢
    simp only [hmoved.passes.tables, hmoved.passes.predicate, htable, below_iff, he]
    simp only [List.not_mem_nil, Option.not_mem_none, false_imp_iff, implies_true, and_true, true_and]
    tauto

end Query

/-- Of one query, the paging is gone together with any below if there is none below it and none in its
members. -/
theorem Edit.replacePaging_settled {column : String} {q : Query} {s : Session} {d : Draft}
    (ho : q.offset.isSome = true) (h : replacePaging column ⟨q, s⟩ = .ok () d) :
    d.query.Settled ↔ q.Below Query.Settled ∧ ∀ m ∈ q.members, m.2.Settled := by
  obtain ⟨w⟩ := replacement_of_ok h
  have hnone : d.query.needsNumbering = false ∧ w.numbered.needsNumbering = false :=
    ⟨Query.needsNumbering_of_no_offset w.offset, Query.needsNumbering_of_no_offset (by rw [w.numbering.eq])⟩
  have hpaging : w.rows.limit = q.limit ∧ w.rows.offset = q.offset := by
    rw [w.isolated.limit, w.isolated.offset, w.moved.child]; exact ⟨rfl, rfl⟩
  -- One operation back at a time: the bounds, the row number, the page above DISTINCT, the push-down.
  calc d.query.Settled
      ↔ w.numbered.Below Query.Settled ∧ (∀ e ∈ q.limit, e.Settled) ∧ ∀ e ∈ q.offset, e.Settled := by
        rw [Query.settled_iff, w.below_iff ho, Query.settled_iff w.numbered, hnone.1, hnone.2]; simp
    _ ↔ w.rows.Below Query.Settled := by
        rw [w.numbering.below_iff Query.settled_of_beq w.numbersRows, hpaging.1, hpaging.2]
    _ ↔ w.child.Below Query.Settled := w.isolated.settled_iff (by rw [w.moved.child])
    _ ↔ q.Below Query.Settled ∧ ∀ m ∈ q.members, m.2.Settled := w.moved.below_iff Query.settled_of_beq

/-! ## The pass -/

namespace Query

/-- Where a query is numbered its members leave the pass no work. -/
def Clear (q : Query) : Prop := ∀ x ∈ q.queries, x.needsNumbering = true → ∀ m ∈ x.members, m.2.Settled

theorem clear_iff (q : Query) :
    q.Clear ↔ (q.needsNumbering = true → ∀ m ∈ q.members, m.2.Settled) ∧ q.Below Clear := forall_mem_queries

theorem settled_iff_clear (q : Query) : ∀ {r : Query}, Query.Passed PagingPass.step PagingPass.Goes q r →
    (r.Settled ↔ q.Clear) := by
  induction q using Query.induct with
  | h q ih =>
    intro r h
    obtain ⟨q', hbelow, htreated⟩ := h.treated
    have hchildren : q.Below Clear ↔ q'.Below Settled :=
      forall_iff_of_forall₂ hbelow.children fun c hc d hd => (ih c hc hd).symm
    have hmembers : q'.members = q.members := by rw [hbelow.same]
    rw [clear_iff, hchildren, ← hbelow.needsNumbering, ← hmembers]
    cases htreated with
    | kept hneeds => rw [settled_iff, hneeds]; simp
    | replaced hneeds hd =>
      rw [Edit.replacePaging_settled (needsNumbering_iff.1 hneeds).1 hd, hneeds, and_comm]
      simp

end Query

/-- After a pass that succeeds no query that a walk enters has an offset without a row number, and a
second pass finds nothing to do, exactly if no member of a query that is numbered holds a query that
needs numbering. -/
theorem replacePaging_complete_iff {dialect : Dialect} (hwithout : dialect.hasOffset = false)
    (hwindows : dialect.hasWindows = true) {named n : Nat} {q : Query} {s : Session}
    (h : (dialect.replacePaging named q s).result = .ok n) :
    ((∀ x, .enter x ∈ (dialect.replacePaging named q s).query.events none → x.offset.isSome = true →
        x.projection.any Expr.numbersRows = true) ∧
      ∀ named' s', dialect.replacePaging named' (dialect.replacePaging named q s).query s' =
        ⟨.ok 0, (dialect.replacePaging named q s).query, s', named'⟩) ↔
      ∀ x, .enter x ∈ q.events none → x.needsNumbering = true →
        ∀ m ∈ x.members, ∀ y ∈ m.2.queries, y.needsNumbering = false := by
  have hclear := q.settled_iff_clear (Dialect.passed_of_ok hwithout hwindows h)
  generalize (dialect.replacePaging named q s).query = r at hclear ⊢
  have hsettled : (∀ x, .enter x ∈ r.events none → x.offset.isSome = true → x.projection.any Expr.numbersRows = true) ↔
      r.Settled := by
    simp only [Query.enter_mem_events, Query.Settled, Query.needsNumbering]
    refine forall₂_congr fun x _ => ?_
    cases x.offset.isSome <;> cases x.projection.any Expr.numbersRows <;> simp
  rw [hsettled]
  simp only [Query.enter_mem_events, Expr.forall_mem_queries]
  exact ⟨fun hr => hclear.1 hr.1, fun hq => ⟨hclear.2 hq, fun _ _ => Dialect.replacePaging_of_none (hclear.2 hq)⟩⟩

/-- A page of a page of people, under a condition on a page of orders, with a member that is a column. -/
theorem replacePaging_complete_below_exists :
    let orders : Query := { tables := [.base "Orders" none "o" (some ⟨2⟩)], offset := some (.int 1) }
    let q : Query := {
      tables := [.nested { tables := [.base "People" none "p" (some ⟨1⟩)], name := some "t", offset := some (.int 3) }]
      predicate := some (.exist orders)
      members := [("Id", .output "t" "Id" .int32)]
      offset := some (.int 1) }
    let r := (Dialect.withoutOffset.replacePaging 0 q {}).query
    (Dialect.withoutOffset.replacePaging 0 q {}).result = .ok 3 ∧
      (∀ x, .enter x ∈ r.events none → x.offset.isSome = true → x.projection.any Expr.numbersRows = true) ∧
      ∀ named s, Dialect.withoutOffset.replacePaging named r s = ⟨.ok 0, r, s, named⟩ := by
  intro orders q r
  have hrun : (Dialect.withoutOffset.replacePaging 0 q {}).result = .ok 3 := by decide +kernel
  refine ⟨hrun, (replacePaging_complete_iff rfl rfl hrun).2 ?_⟩
  simp only [Query.enter_mem_events]
  decide

/-- A member that holds a page of orders: the pass treats it in the slot but not in the member, and the
push-down then moves the member into another slot. -/
theorem replacePaging_leaves_offset_of_member :
    let orders : Query := { tables := [.base "Orders" none "o" (some ⟨2⟩)], offset := some (.int 1) }
    let q : Query := {
      tables := [.base "People" none "p" (some ⟨1⟩)]
      projection := [.exist orders]
      members := [("m", .exist orders)]
      offset := some (.int 2) }
    let r := (Dialect.withoutOffset.replacePaging 0 q {}).query
    (Dialect.withoutOffset.replacePaging 0 q {}).result = .ok 2 ∧
      ¬ (∀ x, .enter x ∈ r.events none → x.offset.isSome = true → x.projection.any Expr.numbersRows = true) ∧
      (Dialect.withoutOffset.replacePaging 2 r {}).result = .ok 1 := by
  simp only [Query.enter_mem_events]
  decide +kernel

end QueryTree
