/-
Where everything goes in a push-down. The nested query takes over all clauses, with the slots of the old
query in their places. The enclosing one has nothing but its name, its wildcard over the nested query under
a fresh name, and as many sort keys and members as before.
-/
import QueryTree.Proofs.FreshNames
import QueryTree.Proofs.Failure
import QueryTree.Proofs.Projection
import QueryTree.Proofs.PushDown.Sunk

namespace QueryTree

/-- A name that is given out was not taken before, and is so afterwards. -/
theorem Session.createName_fresh {stem name : String} {s s' : Session} (h : s.createName stem = .ok name s') :
    s.isTaken name = false ∧ s'.isTaken name = true := by
  constructor
  · by_cases hstem : stem = ""
    · subst hstem
      rw [createName_empty] at h
      cases h
    · have hfree : id (Name.firstFree (· == ·) s.taken stem ((s.numbers.lookup stem).getD 0)).1 ∉ s.taken.map id :=
        Name.firstFree_not_mem (fun a b => beq_iff_eq) (Name.numbered_injective stem) _
      rw [createName_eq hstem s] at h
      cases h
      rwa [List.map_id, id, ← List.contains_iff_mem, Bool.not_eq_true] at hfree
  · obtain ⟨next, rfl⟩ := createName_ok h
    simp [isTaken]

namespace Query

/-! ## Sort keys of the nested query -/

/-- The sort keys of `c` are the given ones, up to those that have come to refer to slots of `c`. -/
def SortsBy (keys : List OrderKey) (c : Query) : Prop :=
  List.Forall₂ (OrderKey.RefersTo c.projection) keys c.orderBy

theorem sortsBy_self (c : Query) : c.SortsBy c.orderBy := List.forall₂_same.2 fun _ _ => .inl rfl

theorem SortsBy.congr {keys : List OrderKey} {c c' : Query} (h : c.SortsBy keys) (hp : c'.projection = c.projection)
    (ho : c'.orderBy = c.orderBy) : c'.SortsBy keys := by
  rw [SortsBy, hp, ho]
  exact h

theorem SortsBy.project {keys : List OrderKey} {c : Query} (h : c.SortsBy keys) (e : Expr) (explicit : Bool) :
    (c.project e explicit).2.SortsBy keys := by
  have hsame : (if explicit then { c with starred := false } else c).SortsBy keys := by
    split
    · exact h
    · exact h
  rcases project_cases e explicit c with ⟨i, -, heq⟩ | ⟨-, -, slot, happended⟩
  · rw [heq]
    exact hsame
  · generalize (if explicit then { c with starred := false } else c) = c' at hsame happended
    have hslots : (c.project e explicit).2.projection = c'.projection ++ [slot] :=
      congrArg Query.projection happended.eq
    -- What a key referred to is still a slot, and what it refers to now is the new one.
    have hkept : c'.projection ⊆ (c.project e explicit).2.projection := by
      rw [hslots]
      exact List.subset_append_left ..
    have hnew : [slot] ⊆ (c.project e explicit).2.projection := by
      rw [hslots]
      exact List.subset_append_right ..
    exact forall₂_join (R := fun k k' => k'.RefersTo c'.projection k) (S := OrderKey.RefersTo [slot])
      (fun hk hk' => (OrderKey.RefersTo.mono hkept hk).trans (hk'.mono hnew)) hsame.flip happended.keys

/-! ## The two queries -/

/-- What a push-down under the name `t` makes of `q`: the query `p` over the nested query `c`. -/
structure Split (t : String) (q p c : Query) : Prop where
  parent : p =
    { tables := [.nested c], orderBy := p.orderBy, name := q.name, starred := true, wildcardChoice := some t,
      members := p.members }
  wildcard : p.wildcardTable = some t
  directions : p.orderBy.map (·.direction) = q.orderBy.map (·.direction)
  memberKeys : p.members.map Prod.fst = q.members.map Prod.fst
  child : c =
    { q with
      projection := c.projection, orderBy := c.orderBy, name := some t, members := []
      starred := q.starred || q.projection.isEmpty }
  slots : (c.projection.take q.projection.length).map Expr.unnamed = q.projection.map Expr.unnamed
  newSlots : ∀ slot ∈ c.projection.drop q.projection.length,
    ∃ e ∈ q.orderBy.map (·.expr) ++ q.members.map (·.2), slot.unnamed = e.stripCasts.unnamed
  unpaged : q.limit = none → q.offset = none → c.orderBy = []
  paged : q.limit.isSome = true ∨ q.offset.isSome = true → c.SortsBy q.orderBy

/-- The sort keys of the nested query, where it keeps them. -/
theorem pushedDown_sortsBy {t : String} {q p c : Query} (h : q.pushedDown t = .ok p) (ht : p.tables = [.nested c])
    (hpaged : q.limit.isSome = true ∨ q.offset.isSome = true) : c.SortsBy q.orderBy := by
  obtain ⟨c', child, hkeys, htables, hslots, horder⟩ := pushedDown_child (Q := SortsBy q.orderBy) h
    (by obtain ⟨copies, -, hfirst⟩ := firstChild_spec t q; rw [hfirst]; exact sortsBy_self _)
    fun e _ c hc => hc.project e false
  obtain rfl : child = c := by rw [htables] at ht; cases ht; rfl
  rw [paged_keeps hpaged] at horder
  exact hkeys.congr hslots horder

theorem pushedDown_split {t : String} {q p : Query} (h : q.pushedDown t = .ok p) : ∃ c, Split t q p c := by
  obtain ⟨c, copies, added, hmoved⟩ := pushedDown_moved h
  have hslots : c.projection = copies ++ added := congrArg Query.projection hmoved.child
  have hlength : copies.length = q.projection.length := by
    rw [← List.length_map (f := Expr.unnamed), hmoved.copies.values, List.length_map]
  refine ⟨c, {
    parent := hmoved.parent
    wildcard := by rw [hmoved.parent]; rfl
    directions := map_eq_of_forall₂ (fun _ _ hk => hk.1) hmoved.keys
    memberKeys := map_eq_of_forall₂ (fun _ _ hm => hm.1) hmoved.members
    child := by rw [hslots]; exact hmoved.child
    slots := ?_
    newSlots := ?_
    unpaged := hmoved.unordered
    paged := fun hpaged => pushedDown_sortsBy h (by rw [hmoved.parent]) hpaged }⟩
  · rw [hslots, List.take_left' hlength, hmoved.copies.values]
  · rw [hslots, List.drop_left' hlength]
    exact hmoved.sources

end Query

/-- A push-down that succeeds splits the query in two, the nested one under a name that was free. -/
theorem pushDown_split {q p : Query} {s s' : Session} (h : Edit.pushDown ⟨q, s⟩ = .ok () ⟨p, s'⟩) :
    ∃ t c, s.createSubqueryName = .ok t s' ∧ s.isTaken t = false ∧ s'.isTaken t = true ∧ Query.Split t q p c := by
  obtain ⟨t, ht, hq⟩ := Edit.pushDown_ok h
  obtain ⟨hfree, htaken⟩ := Session.createName_fresh ht
  obtain ⟨c, hsplit⟩ := Query.pushedDown_split hq
  exact ⟨t, c, ht, hfree, htaken, hsplit⟩

/-- A computed sort key gets a slot behind the projected one, and then refers to it. -/
theorem pushDown_split_by_computed_key :
    let next := Expr.binary .add (.column "p" (some ⟨1⟩) "Id" .int32) (.int 1)
    let q : Query := {
      tables := [.base "People" none "p" (some ⟨1⟩)]
      projection := [.column "p" (some ⟨1⟩) "Name" .text]
      orderBy := [⟨next, .desc⟩]
      limit := some (.int 5)
      members := [("Name", .column "p" (some ⟨1⟩) "Name" .text)] }
    let c : Query :=
      { q with
        projection := q.projection ++ [.named "c" next], orderBy := [⟨.named "c" next, .desc⟩], name := some "t"
        members := [] }
    ∃ p s', Edit.pushDown ⟨q, {}⟩ = .ok () ⟨p, s'⟩ ∧ ∃ t, Query.Split t q p c := by
  intro next q c
  obtain ⟨p, s', hp, htables⟩ : ∃ p s', Edit.pushDown ⟨q, {}⟩ = .ok () ⟨p, s'⟩ ∧ p.tables = [.nested c] := by
    simp only [q, next]
    exact ⟨_, _, rfl, rfl⟩
  obtain ⟨t, c', -, -, -, hsplit⟩ := pushDown_split hp
  rw [hsplit.parent] at htables
  cases htables
  exact ⟨p, s', hp, t, hsplit⟩

end QueryTree
