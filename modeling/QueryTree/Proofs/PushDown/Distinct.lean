/-
The columns that DISTINCT ranges over after a push-down: all slots of the nested query. They are the
slots of the old query and no others exactly if these have the values of all its sort keys and
members.
-/
import QueryTree.Proofs.PushDown.Rows

namespace QueryTree

namespace Query

/-- The output of `c` has the slots of `q`, up to names, and nothing else. -/
def SameSlots (q c : Query) : Prop :=
  c.starred = false ∧ c.projection.map Expr.unnamed = q.projection.map Expr.unnamed

theorem Sunk.sameSlots_iff {t : String} {q p c : Query} {copies added : List Expr} (hs : q.starred = false)
    (h : Sunk t q p c copies added) : q.SameSlots c ↔ q.Covered := by
  have hstarred : c.starred = false := by rw [h.child]; exact hs
  rw [← h.added_eq_nil, SameSlots, h.projection, List.map_append, h.copies.values]
  simp [hstarred]

end Query

theorem Edit.distinctRows_paged_ok {q : Query} {s : Session} {d : Draft}
    (hpaged : (q.limit.isSome || q.offset.isSome) = true) (h : Edit.distinctRows true ⟨q, s⟩ = .ok () d) :
    ∃ p, Edit.pushDown ⟨q, s⟩ = .ok () ⟨p, d.session⟩ ∧ d.query = { p with distinct := true } := by
  obtain ⟨q', d₁, hq, h⟩ := Edit.bind_ok h
  cases hq
  rw [Bool.true_and, if_pos hpaged] at h
  obtain ⟨u, d₂, hpush, h⟩ := Edit.bind_ok h
  cases h
  exact ⟨d₂.query, hpush, rfl⟩

/-- DISTINCT ranges over the slots that were projected, whether it is pushed down itself or set on a
paged query, exactly if each sort key and member has a slot. Else the slots that they get count too. -/
theorem distinct_columns_iff {q : Query} (hs : q.starred = false) (hp : q.projection ≠ []) (s : Session) :
    (∀ p s', q.distinct = true → Edit.pushDown ⟨q, s⟩ = .ok () ⟨p, s'⟩ →
      ∃ t c, Query.Passes t p c ∧ c.distinct = true ∧ (q.SameSlots c ↔ q.Covered)) ∧
    (∀ p s', (q.limit.isSome || q.offset.isSome) = true → Edit.distinctRows true ⟨q, s⟩ = .ok () ⟨p, s'⟩ →
      ∃ t c, Query.Passes t p c ∧ p.distinct = true ∧ (q.SameSlots c ↔ q.Covered)) := by
  refine ⟨fun p s' hd h => ?_, fun p s' hpaged h => ?_⟩
  · obtain ⟨t, -, h⟩ := Edit.pushDown_ok h
    obtain ⟨c, copies, added, h⟩ := Query.pushedDown_ok hs hp h
    exact ⟨t, c, h.passes, by rw [h.child]; exact hd, h.sameSlots_iff hs⟩
  · obtain ⟨p', h, hp'⟩ := Edit.distinctRows_paged_ok hpaged h
    obtain ⟨t, -, h⟩ := Edit.pushDown_ok h
    obtain ⟨c, copies, added, h⟩ := Query.pushedDown_ok hs hp h
    obtain rfl : p = { p' with distinct := true } := hp'
    have ho := h.passes
    exact ⟨t, c, ⟨ho.tables, ho.name, ho.starred, ho.choice, ho.projection, ho.predicate⟩, rfl, h.sameSlots_iff hs⟩

/-- With a sort key that has a slot, the columns stay what they are. -/
theorem distinct_columns_of_sorted_by_name :
    let q : Query := { tables := [.base "People" none "p" none], projection := [.column "p" none "Name" .text],
                       orderBy := [⟨.column "p" none "Name" .text, .desc⟩], distinct := true }
    q.starred = false ∧ q.projection ≠ [] ∧
      ∃ p s', Edit.pushDown ⟨q, {}⟩ = .ok () ⟨p, s'⟩ ∧
        ∃ t c, Query.Passes t p c ∧ c.distinct = true ∧ q.SameSlots c := by
  intro q
  refine ⟨rfl, List.cons_ne_nil _ _, _, _, rfl, ?_⟩
  obtain ⟨t, c, hp, hd, hc⟩ := (distinct_columns_iff (q := q) rfl (List.cons_ne_nil _ _) {}).1 _ _ rfl rfl
  exact ⟨t, c, hp, hd, hc.2 (by decide)⟩

/-- A sort key without a slot widens DISTINCT, below the push-down as above it. -/
theorem distinct_widened_by_sort_key :
    let q : Query := { tables := [.base "People" none "p" none], projection := [.column "p" none "Name" .text],
                       orderBy := [⟨.column "p" none "Id" .int32, .asc⟩] }
    (∃ p s', Edit.pushDown ⟨{ q with distinct := true }, {}⟩ = .ok () ⟨p, s'⟩ ∧
      ¬ ∃ c, p.tables = [.nested c] ∧ { q with distinct := true }.SameSlots c) ∧
    (∃ p s', Edit.distinctRows true ⟨{ q with limit := some (.int 5) }, {}⟩ = .ok () ⟨p, s'⟩ ∧
      ¬ ∃ c, p.tables = [.nested c] ∧ { q with limit := some (.int 5) }.SameSlots c) := by
  intro q
  refine ⟨⟨_, _, rfl, ?_⟩, ⟨_, _, rfl, ?_⟩⟩
  · rintro ⟨c, hc, hs⟩
    cases hc
    exact absurd (congrArg List.length hs.2) (by decide)
  · rintro ⟨c, hc, hs⟩
    cases hc
    exact absurd (congrArg List.length hs.2) (by decide)

end QueryTree
