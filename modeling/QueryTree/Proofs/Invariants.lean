/-
Properties of queries that operations on drafts keep, whether they succeed or not. The operations
consist of a few kinds of changes to one query; a property that these keep the operations keep. The
name of a query they keep in any case.
-/
import QueryTree.Proofs.Paging.Placement

namespace QueryTree

/-- The state that an operation leaves, also where it fails. -/
def stateOf {ε σ α : Type} : EStateM.Result ε σ α → σ
  | .ok _ s | .error _ s => s

namespace Query

/-- The expressions of a query: those that a walk sees, and those that members are read from. -/
def terms (q : Query) : List Expr := q.exprs ++ q.members.map (·.2)

/-! ## Choosing and switching the wildcard -/

theorem chooseWildcard_eq (name : String) (q : Query) : chooseWildcard name q =
    if q.tables.any (·.name == some name) then .ok () { q with wildcardChoice := some name }
    else .error (.wildcardTableMissing name) q := by
  change (if q.tables.any (·.name == some name) then modify ({ · with wildcardChoice := some name })
    else throw (.wildcardTableMissing name) : EStateM Error Query Unit) q = _
  split
  · rfl
  · rfl

theorem switchWildcard_eq (starred : Bool) (q : Query) : switchWildcard starred q =
    if starred && q.wildcardTable.isNone then .error (.wildcardUnresolved q.tables.length) q
    else .ok () { q with starred } := by
  change (if starred && q.wildcardTable.isNone then
    throw (.wildcardUnresolved q.tables.length) >>= fun _ => set { q with starred } else set { q with starred } :
      EStateM Error Query Unit) q = _
  split
  · rfl
  · rfl

/-! ## What projecting leaves alone -/

/-- An expression without a slot is appended, once the wildcard is off where that is asked for. -/
theorem project_keeps {K : Query → Prop} {e : Expr} (explicit : Bool) {q : Query}
    (hstarred : ∀ {q : Query}, K q → K { q with starred := false })
    (happend : ∀ {q : Query}, K q → q.slotOf e.stripCasts = none → K (q.appendValue e.stripCasts)) (h : K q) :
    K (q.project e explicit).2 := by
  unfold project
  simp only
  generalize hq : (if explicit then { q with starred := false } else q) = q'
  have h' : K q' := by
    rw [← hq]
    split
    · exact hstarred h
    · exact h
  split
  · exact h'
  · rename_i hs
    exact happend h' hs

/-- A query is the same as itself but for slots, sort keys and the wildcard. -/
theorem clauses_refl (q : Query) : ∃ slots keys starred,
    q = { q with projection := slots, orderBy := keys, starred } := by
  cases q
  exact ⟨_, _, _, rfl⟩

/-- No more than slots, sort keys and the wildcard change. -/
theorem project_eq (e : Expr) (explicit : Bool) (q : Query) : ∃ slots keys starred,
    (q.project e explicit).2 = { q with projection := slots, orderBy := keys, starred } := by
  refine project_keeps (K := fun r => ∃ slots keys starred,
    r = { q with projection := slots, orderBy := keys, starred }) explicit ?_ ?_ q.clauses_refl
  · rintro _ ⟨slots, keys, starred, rfl⟩
    exact ⟨slots, keys, false, rfl⟩
  · rintro _ ⟨slots, keys, starred, rfl⟩ -
    exact ⟨_, _, starred, appendValue_eq _ _⟩

/-- In a query with a name a new slot gets a name that no other has. -/
theorem slotsNamed_project (e : Expr) (explicit : Bool) {q : Query} (h : SlotsNamed q.projection)
    (hname : q.name.isSome = true) : SlotsNamed (q.project e explicit).2.projection := by
  refine (project_keeps (K := fun r => r.name.isSome = true ∧ SlotsNamed r.projection) explicit id ?_ ⟨hname, h⟩).2
  rintro r ⟨hname, h⟩ -
  obtain ⟨slot, keys, -, heq, -, hnamed, -⟩ := appendValue_spec e.stripCasts r
  rw [heq]
  exact ⟨hname, hnamed hname h⟩

/-- What projecting an expression keeps is kept by projecting one after the other. -/
theorem foldl_project_keeps {K : Query → Prop} {E : Expr → Prop}
    (hproject : ∀ {e q}, E e → K q → K (q.project e false).2) :
    ∀ {es : List Expr} {q : Query}, (∀ e ∈ es, E e) → K q → K (es.foldl (fun q e => (q.project e false).2) q)
  | [], _, _, h => h
  | e :: es, q, hes, h => by
    rw [List.forall_mem_cons] at hes
    exact foldl_project_keeps hproject (q := (q.project e false).2) hes.2 (hproject hes.1 h)

/-- The wildcard is replaced by references to the nested query and by what the memo holds, so that
what projecting these keeps is kept. -/
theorem expandStarTo_keeps {K P : Query → Prop} (hproject : ∀ {e q}, e.Below P → K q → K (q.project e false).2)
    (hstarred : ∀ {q : Query}, K q → K { q with starred := false }) (count : Option Nat) {q : Query}
    (hmemo : ∀ e ∈ q.memo.entries, e.Below P) (h : K q) : K (stateOf (expandStarTo count q)) := by
  unfold expandStarTo
  split
  · split
    · exact h
    · rename_i child _ _ _ name _
      split
      · exact h
      · rename_i lifted hl
        obtain ⟨-, rfl⟩ := mapM_lift_ok hl
        have hcolumns : ∀ e ∈ references name (child.outputs count) ++ q.memo.entries, e.Below P := by
          refine List.forall_mem_append.2 ⟨fun e he => ?_, hmemo⟩
          obtain ⟨slot, -, rfl⟩ := List.mem_map.1 he
          exact Expr.below_output _ _ _
        exact hstarred (foldl_project_keeps hproject hcolumns h)
  · exact h

theorem expandStarTo_eq (count : Option Nat) (q : Query) : ∃ slots keys starred,
    stateOf (expandStarTo count q) = { q with projection := slots, orderBy := keys, starred } := by
  refine expandStarTo_keeps (K := fun r => ∃ slots keys starred,
    r = { q with projection := slots, orderBy := keys, starred }) (P := fun _ => True) ?_ ?_ count
    (fun _ _ _ _ => trivial) q.clauses_refl
  · rintro e _ - ⟨slots, keys, starred, rfl⟩
    obtain ⟨slots', keys', starred', heq⟩ := project_eq e false { q with projection := slots, orderBy := keys, starred }
    exact ⟨slots', keys', starred', heq⟩
  · rintro _ ⟨slots, keys, starred, rfl⟩
    exact ⟨slots, keys, false, rfl⟩

theorem project_name (e : Expr) (explicit : Bool) (q : Query) : (q.project e explicit).2.name = q.name := by
  obtain ⟨slots, keys, starred, heq⟩ := project_eq e explicit q
  rw [heq]

theorem expandStarTo_name (count : Option Nat) (q : Query) : (stateOf (expandStarTo count q)).name = q.name := by
  obtain ⟨slots, keys, starred, heq⟩ := expandStarTo_eq count q
  rw [heq]

/-! ## Invariants -/

/-- A property that the changes which operations consist of keep, as long as the queries under EXISTS
in what they bring in have the property `R`. -/
structure Invariant (P R : Query → Prop) : Prop where
  below : ∀ {q}, P q → ∀ e ∈ q.terms, e.Below R
  child : ∀ {q c}, P q → q.tables = [.nested c] → P c
  withChild : ∀ {q c c'}, P q → q.tables = [.nested c] → P c' → c'.name = c.name → P { q with tables := [.nested c'] }
  pushedDown : ∀ {t q p}, P q → q.pushedDown t = .ok p → P p
  expandStarTo : ∀ count {q}, P q → P (stateOf (q.expandStarTo count))
  project : ∀ {e} explicit {q}, e.Below R → P q → P (q.project e explicit).2
  /-- Clauses are set, slots and keys go. -/
  change : ∀ {q q'}, P q → q'.name = q.name → q'.tables = q.tables → q'.memo = q.memo →
    q'.wildcardChoice = q.wildcardChoice → (q'.projection = q.projection ∨ q'.projection = []) →
    (∀ e ∈ q'.terms, e ∈ q.terms ∨ e.Below R) → P q'

end Query

namespace Edit

variable {α β : Type} {P R : Query → Prop}

/-- The operation keeps `P` and the name of the query, and what it answers with if it succeeds has `Q`. -/
def Meets (P : Query → Prop) (act : Edit α) (Q : α → Prop) : Prop :=
  ∀ d, P d.query → P (stateOf (act d)).query ∧ (stateOf (act d)).query.name = d.query.name ∧
    ∀ a d', act d = .ok a d' → Q a

namespace Meets

variable {Q : α → Prop} {Q' : β → Prop}

theorem pure {a : α} (ha : Q a) : Meets P (Pure.pure a : Edit α) Q :=
  fun _ h => ⟨h, rfl, fun _ _ heq => by cases heq; exact ha⟩

theorem throw (e : Error) : Meets P (throw e : Edit α) Q := fun _ h => ⟨h, rfl, fun _ _ heq => by cases heq⟩

theorem bind {x : Edit α} {f : α → Edit β} (hx : Meets P x Q) (hf : ∀ a, Q a → Meets P (f a) Q') :
    Meets P (x >>= f) Q' := by
  intro d h
  obtain ⟨hd, hname, ha⟩ := hx d h
  change P (stateOf (EStateM.bind x f d)).query ∧ (stateOf (EStateM.bind x f d)).query.name = d.query.name ∧
    ∀ b d', EStateM.bind x f d = .ok b d' → Q' b
  unfold EStateM.bind
  rcases hr : x d with ⟨a, d'⟩ | ⟨e, d'⟩
  · rw [hr] at hd hname
    obtain ⟨hd', hname', hb⟩ := hf a (ha a d' hr) d' hd
    exact ⟨hd', hname'.trans hname, hb⟩
  · rw [hr] at hd hname
    exact ⟨hd, hname, fun _ _ heq => by cases heq⟩

theorem ite {p : Prop} [Decidable p] {x y : Edit α} (hx : Meets P x Q) (hy : Meets P y Q) :
    Meets P (if p then x else y) Q := by
  split
  · exact hx
  · exact hy

/-- A step that is done only under a condition, ahead of the rest. -/
theorem whenThen {p : Prop} [Decidable p] {x : Edit Unit} {rest : Unit → Edit β} (hx : Meets P x fun _ => True)
    (hrest : Meets P (rest ()) Q') : Meets P (if p then x >>= rest else rest ()) Q' :=
  ite (bind hx fun _ _ => hrest) hrest

theorem query : Meets P Edit.query P := fun _ h => ⟨h, rfl, fun _ _ heq => by cases heq; exact h⟩

theorem modifyQuery {f : Query → Query} (hf : ∀ q, P q → P (f q)) (hname : ∀ q, (f q).name = q.name) :
    Meets P (Edit.modifyQuery f) fun _ => True :=
  fun d h => ⟨hf d.query h, hname d.query, fun _ _ _ => trivial⟩

theorem onQuery {act : EStateM Error Query α} (hact : ∀ q, P q → P (stateOf (act q)))
    (hname : ∀ q, (stateOf (act q)).name = q.name) : Meets P (Edit.onQuery act) fun _ => True := by
  intro d h
  have hq := hact d.query h
  have hn := hname d.query
  unfold Edit.onQuery
  generalize act d.query = r at hq hn ⊢
  rcases r with ⟨a, q⟩ | ⟨e, q⟩
  · exact ⟨hq, hn, fun _ _ _ => trivial⟩
  · exact ⟨hq, hn, fun _ _ _ => trivial⟩

theorem onSession {act : EStateM Error Session α} : Meets P (Edit.onSession act) fun _ => True := by
  intro d h
  unfold Edit.onSession
  rcases act d.session with ⟨a, s⟩ | ⟨e, s⟩
  · exact ⟨h, rfl, fun _ _ _ => trivial⟩
  · exact ⟨h, rfl, fun _ _ _ => trivial⟩

end Meets

/-! ## Operations -/

section Operations

variable (inv : Query.Invariant P R)
include inv

theorem meets_onNested {act : Edit α} {Q : α → Prop} (hact : Meets P act Q) : Meets P (onNested act) Q := by
  intro d h
  unfold onNested
  split
  · rename_i c hc
    have hinner := hact { d with query := c } (inv.child h hc)
    -- What the operation leaves of the nested query is put back into the same place.
    have haround : ∀ inner : Draft, P inner.query → inner.query.name = c.name →
        P { d.query with tables := [.nested inner.query] } := fun _ hi hn => inv.withChild h hc hi hn
    rcases hr : act { d with query := c } with ⟨a, inner⟩ | ⟨e, inner⟩
    · rw [hr] at hinner
      exact ⟨haround inner hinner.1 hinner.2.1, rfl, fun _ _ heq => by cases heq; exact hinner.2.2 a inner rfl⟩
    · rw [hr] at hinner
      exact ⟨haround inner hinner.1 hinner.2.1, rfl, fun _ _ heq => by cases heq⟩
  · exact ⟨h, rfl, fun _ _ heq => by cases heq⟩

theorem meets_pushDown : Meets P pushDown fun _ => True := by
  refine .bind .onSession fun t _ d h => ?_
  rw [query_bind]
  rcases hp : d.query.pushedDown t with e | p
  · exact ⟨h, rfl, fun _ _ _ => trivial⟩
  · obtain ⟨c, copies, added, hmoved⟩ := Query.pushedDown_moved hp
    have hname : p.name = d.query.name := by rw [hmoved.parent]
    exact ⟨inv.pushedDown h hp, hname, fun _ _ _ => trivial⟩

theorem meets_limitTo {limit : Option Expr} (hl : ∀ e ∈ limit, e.Below R) : Meets P (limitTo limit) fun _ => True := by
  refine .bind .query fun _ _ => .whenThen (meets_pushDown inv) (.modifyQuery (fun q h => ?_) fun _ => rfl)
  refine inv.change h rfl rfl rfl rfl (.inl rfl) fun e he => ?_
  simp only [Query.terms, Query.exprs, List.mem_append, Option.mem_toList] at he ⊢
  have := hl e
  tauto

theorem meets_startAfter {offset : Option Expr} (ho : ∀ e ∈ offset, e.Below R) :
    Meets P (startAfter offset) fun _ => True := by
  refine .bind .query fun _ _ => .whenThen (meets_pushDown inv) (.modifyQuery (fun q h => ?_) fun _ => rfl)
  refine inv.change h rfl rfl rfl rfl (.inl rfl) fun e he => ?_
  simp only [Query.terms, Query.exprs, List.mem_append, Option.mem_toList] at he ⊢
  have := ho e
  tauto

theorem meets_distinctRows (distinct : Bool) : Meets P (distinctRows distinct) fun _ => True :=
  .bind .query fun _ _ => .whenThen (meets_pushDown inv) <|
    .modifyQuery (fun _ h => inv.change h rfl rfl rfl rfl (.inl rfl) fun _ => .inl) fun _ => rfl

theorem meets_unordered : Meets P (modifyQuery Query.unordered) fun _ => True := by
  refine .modifyQuery (fun q h => inv.change h rfl rfl rfl rfl (.inl rfl) fun e he => ?_) fun _ => rfl
  simp only [Query.terms, Query.exprs, Query.unordered, List.map_nil, List.mem_append] at he ⊢
  simp only [List.not_mem_nil, or_false] at he
  tauto

theorem meets_projectOnly {e : Expr} (he : e.Below R) : Meets P (projectOnly e) fun _ => True := by
  refine .bind .query fun _ _ => .whenThen (meets_pushDown inv)
    (.bind (.modifyQuery (fun q h => ?_) fun _ => rfl) fun _ _ d h => ?_)
  · refine inv.change h rfl rfl rfl rfl (.inr rfl) fun e he => ?_
    simp only [Query.terms, Query.exprs, Query.projectNothing, List.nil_append, List.mem_append] at he ⊢
    tauto
  · exact ⟨inv.project true he h, Query.project_name e true d.query, fun _ _ _ => trivial⟩

/-- A condition that is added stands under AND with the one there was. -/
theorem restrict_keeps {e : Expr} (he : e.Below R) {q : Query} (h : P q) : P (q.restrict e) := by
  refine inv.change h rfl rfl rfl rfl (.inl rfl) fun x hx => ?_
  have hjoined : (Expr.conjoin q.predicate e).Below R := by
    rcases hp : q.predicate with _ | old
    · exact he
    · exact (Expr.below_binary ..).2 ⟨inv.below h old (by simp [Query.terms, Query.exprs, hp]), he⟩
  simp only [Query.terms, Query.exprs, Query.restrict, Option.toList_some, List.mem_append, List.mem_singleton] at hx ⊢
  rcases hx with ((((hx | rfl) | hx) | hx) | hx) | hx
  · tauto
  · exact .inr hjoined
  all_goals tauto

theorem below_limit {q : Query} (h : P q) : ∀ e ∈ q.limit, e.Below R := fun e he =>
  inv.below h e (by simp only [Query.terms, Query.exprs, List.mem_append, Option.mem_toList]; tauto)

theorem below_offset {q : Query} (h : P q) : ∀ e ∈ q.offset, e.Below R := fun e he =>
  inv.below h e (by simp only [Query.terms, Query.exprs, List.mem_append, Option.mem_toList]; tauto)

theorem below_orderBy {q : Query} (h : P q) : ∀ k ∈ q.orderBy, k.expr.Below R := fun k hk =>
  inv.below h _ (by
    simp only [Query.terms, Query.exprs, List.mem_append, List.mem_map]
    exact .inl (.inl (.inl (.inr ⟨k, hk, rfl⟩))))

theorem meets_sinkDistinct : Meets P sinkDistinct fun _ => True :=
  .bind .query fun _ hq => .bind (meets_startAfter inv (by simp)) fun _ _ =>
    .bind (meets_limitTo inv (by simp)) fun _ _ => .bind (meets_pushDown inv) fun _ _ =>
      .bind (.onQuery (fun _ h => inv.expandStarTo none h) (Query.expandStarTo_name none)) fun _ _ =>
        .bind (meets_startAfter inv (below_offset inv hq)) fun _ _ => meets_limitTo inv (below_limit inv hq)

theorem meets_numberRows (column : String) : Meets P (numberRows column) fun bounds => ∀ e ∈ bounds, e.Below R := by
  refine .bind .query fun q _ => .whenThen (meets_sinkDistinct inv) (.bind .query fun q hq => ?_)
  rcases q.name with _ | name
  · exact .throw _
  have hkeys : (Expr.rowNumber (numberingKeys q.orderBy)).Below R := by
    rw [Expr.below_rowNumber, Expr.below_hereditary.numberingKeys]; exact below_orderBy inv hq
  refine .bind (meets_unordered inv) fun _ _ => .bind (Q := fun _ => True) (fun d h => ?_) fun slot _ => ?_
  · exact ⟨inv.project false ((Expr.below_withName _ _).2 hkeys) h, Query.project_name _ false d.query,
      fun _ _ _ => trivial⟩
  rcases hl : slot.lift name with e | rowNumber
  · exact .throw _
  obtain ⟨name', -, rfl⟩ := Query.lift_ok hl
  refine .bind .query fun q hq => .bind (meets_startAfter inv (by simp)) fun _ _ =>
    .bind (meets_limitTo inv (by simp)) fun _ _ => .pure ?_
  rcases ho : q.offset with _ | o
  · simp [Expr.pagingBounds]
  · exact (Expr.below_hereditary.pagingBounds (Expr.below_output _ _ _) rfl).2
      ⟨below_limit inv hq, fun e he => below_offset inv hq e (by rw [ho]; exact he)⟩

theorem meets_replacePaging (column : String) : Meets P (replacePaging column) fun _ => True := by
  have hunordered : Meets P (do if (← Edit.query).name.isSome then Edit.modifyQuery Query.unordered) fun _ => True :=
    .bind .query fun _ _ => .ite (meets_unordered inv) (.pure trivial)
  refine .bind .query fun q _ => .bind (meets_pushDown inv) fun _ _ =>
    .bind (Q := fun _ => True) (meets_onNested inv (.bind .query fun _ _ => .pure trivial)) fun memo _ =>
    .whenThen (.onQuery (fun _ h => inv.expandStarTo _ h) (Query.expandStarTo_name _))
      (.bind (meets_onNested inv (meets_numberRows inv column)) fun bounds hbounds => ?_)
  rcases hc : Expr.conjunction bounds with _ | condition
  · exact hunordered
  · have hcondition := (Expr.below_hereditary.conjunction bounds).2 hbounds condition hc
    exact .bind (.modifyQuery (fun q h => restrict_keeps inv hcondition h) fun _ => rfl) fun _ _ => hunordered

end Operations

theorem trivial_invariant : Query.Invariant (fun _ => True) fun _ => True where
  below _ _ _ _ _ := trivial
  child _ _ := trivial
  withChild _ _ _ _ := trivial
  pushedDown _ _ := trivial
  expandStarTo _ _ _ := trivial
  project _ _ _ _ := trivial
  change _ _ _ _ _ _ _ := trivial

theorem replacePaging_name (column : String) (d : Draft) :
    (stateOf (replacePaging column d)).query.name = d.query.name :=
  (meets_replacePaging trivial_invariant column d trivial).2.1

end Edit

/-- A step of the pass does one replacement, whether it succeeds or not, or nothing. -/
theorem PagingPass.step_query (q : Query) (p : PagingPass) :
    (step q p).1 = q ∨ (step q p).1 = (stateOf (Edit.replacePaging p.columnName ⟨q, p.session⟩)).query := by
  unfold step
  split
  · exact .inl rfl
  · right
    rcases Edit.replacePaging p.columnName ⟨q, p.session⟩ with ⟨u, d⟩ | ⟨e, d⟩
    · rfl
    · rfl

end QueryTree
