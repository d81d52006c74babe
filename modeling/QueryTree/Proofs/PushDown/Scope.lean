/-
The one output that a query is reduced to. A limited or DISTINCT query is pushed down first, which puts
its tables out of reach: what sort keys and members refer to is shown by the nested query, but the new
output is taken as it is. So it stays in scope if the query was not pushed down, and else only where it
happens to refer to nothing but the nested query.
-/
import QueryTree.Proofs.Correlation.Search
import QueryTree.Proofs.Projection

namespace QueryTree

namespace Expr

/-! ## References -/

/-- `e` has a reference to a column of the table or nested query `name`, not counting those under EXISTS. -/
def RefersTo (name : String) (e : Expr) : Prop := ∃ x : Expr, x.PartOf e ∧ x.owner = some name

theorem refersTo_iff {name : String} {e : Expr} :
    e.RefersTo name ↔ e.owner = some name ∨ ∃ o ∈ e.operands, o.RefersTo name := by
  constructor
  · rintro ⟨x, hx, hname⟩
    rcases partOf_iff.1 hx with rfl | ⟨o, ho, hx⟩
    · exact .inl hname
    · exact .inr ⟨o, ho, x, hx, hname⟩
  · rintro (hname | ⟨o, ho, x, hx, hname⟩)
    · exact ⟨e, .self, hname⟩
    · exact ⟨x, .operand ho hx, hname⟩

/-- An expression with one operand refers to what that does, unless it is a column. -/
theorem refersTo_of_operands {name : String} {e o : Expr} (howner : e.owner = none) (h : e.operands = [o]) :
    e.RefersTo name ↔ o.RefersTo name := by
  rw [refersTo_iff, howner, h]
  simp

/-- What has no operands refers to its own table at most. -/
theorem refersTo_of_no_operands {name : String} {e : Expr} (h : e.operands = []) :
    e.RefersTo name ↔ e.owner = some name := by
  rw [refersTo_iff, h]
  simp

theorem refersTo_unnamed (name : String) : ∀ e : Expr, e.unnamed.RefersTo name ↔ e.RefersTo name
  | named n inner => by
    rw [unnamed, refersTo_unnamed name inner]
    exact (refersTo_of_operands (e := named n inner) rfl rfl).symm
  | column .. | star _ | output .. | constant .. | parameter .. | rowNumber _ | cast .. | binary .. | not _
  | call .. | exist _ => Iff.rfl

theorem refersTo_stripCasts (name : String) (e : Expr) : e.stripCasts.RefersTo name ↔ e.RefersTo name := by
  induction e using stripCasts.induct with
  | case1 operand t h ih =>
    rw [stripCasts, if_pos h, ih]
    exact (refersTo_of_operands (e := cast operand t) rfl rfl).symm
  | case2 operand t h => rw [stripCasts, if_neg h]
  | case3 e h => cases e <;> first | rfl | exact absurd rfl (h _ _)

/-- All that `e` refers to is listed in `tables`. -/
def InScope (tables : List Table) (e : Expr) : Prop := ∀ name, e.RefersTo name → ∃ t ∈ tables, t.name = some name

theorem InScope.of_stripCasts {tables : List Table} {e slot : Expr} (hslot : slot.unnamed = e.stripCasts.unnamed) :
    slot.InScope tables ↔ e.InScope tables := by
  have hrefers (name : String) : slot.RefersTo name ↔ e.RefersTo name := by
    rw [← refersTo_unnamed name slot, hslot, refersTo_unnamed, refersTo_stripCasts]
  simp only [InScope, hrefers]

end Expr

/-! ## One output -/

namespace Query

theorem project_tables (e : Expr) (explicit : Bool) (q : Query) : (q.project e explicit).2.tables = q.tables := by
  obtain ⟨slots, keys, starred, heq⟩ := project_eq e explicit q
  rw [heq]

/-- A new output has one slot, for the expression. -/
theorem projectNothing_project_slot (e : Expr) (q : Query) :
    ∃ slot, (q.projectNothing.project e true).2.projection = [slot] ∧ slot.unnamed = e.stripCasts.unnamed := by
  rcases q.projectNothing.project_slots e true with ⟨hslot, -⟩ | ⟨-, -, slot, hvalue, hslots⟩
  · -- Without slots nothing is found.
    cases hslot
  · exact ⟨slot, hslots, hvalue⟩

/-- The output is in scope if the expression is. -/
theorem projectNothing_project_inScope (q : Query) (e : Expr) :
    (∀ x ∈ (q.projectNothing.project e true).2.projection, x.InScope q.tables) ↔ e.InScope q.tables := by
  obtain ⟨slot, hone, hvalue⟩ := projectNothing_project_slot e q
  rw [hone, List.forall_mem_singleton]
  exact Expr.InScope.of_stripCasts hvalue

end Query

namespace Edit

/-- The query whose output is replaced is the given one, or what is left of it by a push-down. -/
theorem projectOnly_ok {e : Expr} {q r : Query} {s s' : Session} {i : Nat} (h : projectOnly e ⟨q, s⟩ = .ok i ⟨r, s'⟩) :
    ∃ p : Query, r = (p.projectNothing.project e true).2 ∧
      if q.limit.isSome || q.distinct then pushDown ⟨q, s⟩ = .ok () ⟨p, s'⟩ else p = q ∧ s' = s := by
  have hrest : ∀ {d : Draft}, (do
      modifyQuery Query.projectNothing
      modifyGet fun d => ((d.query.project e true).1, { d with query := (d.query.project e true).2 }) : Edit Nat) d =
        .ok i ⟨r, s'⟩ → r = (d.query.projectNothing.project e true).2 ∧ s' = d.session := by
    intro d hd
    cases hd
    exact ⟨rfl, rfl⟩
  unfold projectOnly at h
  rw [query_bind] at h
  by_cases hpush : (q.limit.isSome || q.distinct) = true
  · simp only [hpush, if_true] at h ⊢
    obtain ⟨⟨⟩, d, hd, h⟩ := bind_ok h
    obtain ⟨hr, hs⟩ := hrest h
    exact ⟨d.query, hr, by rw [hd, hs]⟩
  · simp only [hpush] at h ⊢
    obtain ⟨hr, hs⟩ := hrest h
    exact ⟨q, hr, rfl, hs⟩

/-- The output of an expression in scope is in scope afterwards exactly if the query has been neither
limited nor DISTINCT, or the expression refers to nothing but what has the name of the pushed-down query. -/
theorem projectOnly_inScope_iff {e : Expr} {q r : Query} {s s' : Session} {i : Nat} (he : e.InScope q.tables)
    (h : projectOnly e ⟨q, s⟩ = .ok i ⟨r, s'⟩) :
    (∀ x ∈ r.projection, x.InScope r.tables) ↔
      (q.limit = none ∧ q.distinct = false) ∨
        ∀ t, s.createSubqueryName = .ok t s' → ∀ name, e.RefersTo name → name = t := by
  obtain ⟨p, rfl, hp⟩ := projectOnly_ok h
  have htables : (p.projectNothing.project e true).2.tables = p.tables := Query.project_tables e true p.projectNothing
  rw [htables, p.projectNothing_project_inScope e]
  by_cases hpush : (q.limit.isSome || q.distinct) = true
  · rw [if_pos hpush] at hp
    obtain ⟨t, ht, hpushed⟩ := pushDown_ok hp
    obtain ⟨c, copies, added, hmoved⟩ := Query.pushedDown_moved hpushed
    have hlist : p.tables = [.nested c] := congrArg Query.tables hmoved.parent
    have hname : (Table.nested c).name = some t := congrArg Query.name hmoved.child
    change s.createSubqueryName = .ok t s' at ht
    have hdirect : ¬(q.limit = none ∧ q.distinct = false) := by
      rintro ⟨hlimit, hdistinct⟩
      rw [hlimit, hdistinct] at hpush
      cases hpush
    -- The nested query is the only table, and its name the only one in scope.
    rw [or_iff_right hdirect, Expr.InScope, hlist]
    simp only [List.mem_singleton, exists_eq_left, hname, Option.some.injEq]
    constructor
    · intro hscope t' ht' name hrefers
      have htt : t' = t := by
        rw [ht] at ht'
        cases ht'
        rfl
      rw [htt, hscope name hrefers]
    · intro hscope name hrefers
      exact (hscope t ht name hrefers).symm
  · rw [if_neg hpush] at hp
    obtain ⟨rfl, -⟩ := hp
    rw [Bool.not_eq_true, Bool.or_eq_false_iff, Option.isSome_eq_false_iff, Option.isNone_iff_eq_none] at hpush
    exact iff_of_true he (.inl hpush)

/-- A number of rows refers to nothing, so it may be the output of a query that is pushed down. The name of a person
may be that of a query without LIMIT, which is not. -/
theorem projectOnly_inScope_of_count :
    let people : Query := { tables := [.base "People" none "p" (some ⟨1⟩)] }
    let person : Query := { people with limit := some (.int 1) }
    let count : Expr := .call "COUNT" [.int 1] .int64
    let name : Expr := .column "p" (some ⟨1⟩) "Name" .text
    (count.InScope person.tables ∧ ∃ i d, projectOnly count ⟨person, {}⟩ = .ok i d ∧
      ∀ x ∈ d.query.projection, x.InScope d.query.tables) ∧
    name.InScope people.tables ∧ name.RefersTo "p" ∧ ∃ i d, projectOnly name ⟨people, {}⟩ = .ok i d ∧
      d.query.projection = [name] ∧ ∀ x ∈ d.query.projection, x.InScope d.query.tables := by
  intro people person count name
  constructor
  · have hnone : ∀ table, ¬count.RefersTo table := by
      intro table
      rw [Expr.refersTo_of_operands rfl rfl, Expr.refersTo_of_no_operands rfl]
      exact fun h => by cases h
    have hcount : count.InScope person.tables := fun table hrefers => absurd hrefers (hnone table)
    refine ⟨hcount, _, _, rfl, ?_⟩
    exact (projectOnly_inScope_iff (q := person) (s := {}) hcount rfl).2
      (.inr fun _ _ table hrefers => absurd hrefers (hnone table))
  · have hname : name.InScope people.tables := fun table hrefers =>
      ⟨_, List.mem_singleton_self _, (Expr.refersTo_of_no_operands rfl).1 hrefers⟩
    refine ⟨hname, (Expr.refersTo_of_no_operands rfl).2 rfl, _, _, rfl, rfl, ?_⟩
    exact (projectOnly_inScope_iff (q := people) (s := {}) hname rfl).2 (.inl ⟨rfl, rfl⟩)

/-- The name of a person is taken from People, which the pushed-down query has below it. -/
theorem projectOnly_out_of_scope :
    let e : Expr := .column "p" (some ⟨1⟩) "Name" .text
    let q : Query := { tables := [.base "People" none "p" (some ⟨1⟩)], projection := [e], limit := some (.int 1) }
    e.InScope q.tables ∧
      ∃ i d, projectOnly e ⟨q, {}⟩ = .ok i d ∧ ¬∀ x ∈ d.query.projection, x.InScope d.query.tables := by
  intro e q
  have hrefers : e.RefersTo "p" := (Expr.refersTo_of_no_operands rfl).2 rfl
  refine ⟨fun name hname => ?_, _, _, rfl, fun hscope => ?_⟩
  · exact ⟨_, List.mem_singleton_self _, (Expr.refersTo_of_no_operands rfl).1 hname⟩
  · obtain ⟨t, ht, hname⟩ := hscope e (List.mem_singleton_self _) "p" hrefers
    cases List.mem_singleton.1 ht
    exact absurd hname (by decide)

end Edit
end QueryTree
