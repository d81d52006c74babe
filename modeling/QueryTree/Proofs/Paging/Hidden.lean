/-
Row numbers that stay inside. When the paging of a query is replaced, the nested query gains a slot
for the row number. The output of the query is fixed before that to what it showed so far, and the
slot gets a name that no other slot has, so nothing of the output refers to it. Only a wildcard that is
not known to stand for any column cannot be fixed: it goes on to stand for all that is there.
-/
import QueryTree.Proofs.Paging.Kept
import QueryTree.Proofs.Paging.Links

namespace QueryTree

/-! ## Names that differ from that of the row number -/

/-- Slots in two parts of a projection have names that differ in more than case. -/
theorem SlotsNamed.lowercase_ne {xs ys : List Expr} {a b : Expr} {m n : String} (h : SlotsNamed (xs ++ ys))
    (ha : a ∈ xs) (hb : b ∈ ys) (hm : a.outputName = some m) (hn : b.outputName = some n) :
    Text.lowercase m ≠ Text.lowercase n := by
  obtain ⟨-, -, hdiffer⟩ := List.pairwise_append.1 h.pairwise
  exact hdiffer a ha b hb m hm n hn

namespace Query

variable {c n : Query}

/-- There is something to show unless the query has neither slots nor bound columns. -/
theorem Moved.shown_eq_nil {t : String} {q p : Query} {copies added : List Expr} (h : Moved t q p c copies added) :
    copies ++ (if q.wild then q.memo.entries else []) = [] ↔ q.projection = [] ∧ q.memo.entries = [] := by
  have hcopies : copies = [] ↔ q.projection = [] := by
    rw [← List.length_eq_zero_iff, h.copies_length, List.length_eq_zero_iff]
  rw [List.append_eq_nil_iff, hcopies]
  refine and_congr_right fun hnil => ?_
  rw [if_pos (by simp [wild, hnil])]

/-- The rows are numbered in a query that has a slot under each name of before. -/
theorem Isolated.mem_slotNames (h : Isolated c n) (hc : SlotsNamed c.projection) {e : Expr} {name : String}
    (he : e ∈ c.projection) (hname : e.outputName = some name) : name ∈ n.slotNames := by
  cases h with
  | plain _ => exact List.mem_filterMap.2 ⟨e, he, hname⟩
  | @distinct u m d copies added slots _ _ hmoved hfixed =>
    have hcopies : d.projection = c.projection ++ added := by
      rw [hmoved.child]
      exact congrArg (· ++ added) (hmoved.copies.unchanged hc)
    -- The wildcard over the DISTINCT query is expanded to its slots first.
    obtain ⟨more, hslots⟩ := hfixed.starts d.projection _ rfl hmoved.named
    rw [slotNames, ← hslots, List.filterMap_append]
    apply List.mem_append_left
    refine List.mem_filterMap.2 ⟨.output u name e.type, ?_, rfl⟩
    refine List.mem_map.2 ⟨e, ?_, by rw [hname]; rfl⟩
    rw [hcopies]
    exact List.mem_append_left _ he

/-- A row number among the slots has been one of the query that was pushed down. -/
theorem Isolated.mem_of_numbersRows (h : Isolated c n) {slot : Expr} (hs : slot ∈ n.projection)
    (hnumbers : slot.numbersRows = true) : slot ∈ c.projection := by
  cases h with
  | plain _ => exact hs
  | distinct _ _ hmoved hfixed =>
    -- All slots are references.
    obtain ⟨e, -, heq⟩ := List.mem_map.1 (hfixed.refers slot hs)
    rw [Expr.numbersRows, ← heq] at hnumbers
    cases hnumbers

theorem Fixed.ne_nil {t : String} {shown slots : List Expr} (h : Fixed t shown slots) (hshown : shown ≠ []) :
    slots ≠ [] := by
  obtain ⟨first, rest, rfl⟩ := List.exists_cons_of_ne_nil hshown
  obtain ⟨name, hname⟩ := Option.isSome_iff_exists.1 (h.named first (List.mem_cons_self ..))
  have hfirst : SlotsNamed [first] := ⟨by simp [hname], by simp [hname]⟩
  obtain ⟨more, hslots⟩ := h.starts [first] rest rfl hfirst
  rw [← hslots]
  exact List.cons_ne_nil _ _

/-- None of the copies is a row number if the rows still have to be numbered. -/
theorem Copies.numbersRows {es copies : List Expr} (h : Copies es copies) (hes : es.any Expr.numbersRows = false)
    {e : Expr} (he : e ∈ copies) : e.numbersRows = false := by
  have hmem : e.unnamed ∈ es.map Expr.unnamed := by
    rw [← h.values]
    exact List.mem_map_of_mem he
  obtain ⟨x, hx, heq⟩ := List.mem_map.1 hmem
  have hfalse : x.numbersRows = false := by
    rw [← Bool.not_eq_true]
    exact List.any_eq_false.1 hes x hx
  rw [Expr.numbersRows, ← heq]
  exact hfalse

/-! ## One query -/

/-- Of `x`, whose paging has been replaced, there is left `r` over a nested query with the number of each
row in a slot. If `x` had slots or bound columns, `r` is no wildcard over it, and else it is one and no more.
What `r` outputs does not refer to the slot, at most to a column of its name that was bound through the
wildcard. -/
def HidesRowNumber (x r : Query) : Prop :=
  ∃ t c slot name, r.tables = [.nested c] ∧ c.name = some t ∧
    slot ∈ c.projection ∧ slot.numbersRows = true ∧ slot.outputName = some name ∧
    r.predicate = Expr.conjunction ((Expr.output t name slot.type).pagingBounds x.offset x.limit) ∧
    (r.starred = true ↔ x.projection = [] ∧ x.memo.entries = []) ∧
    (r.projection = [] ↔ x.projection = [] ∧ x.memo.entries = []) ∧
    ∀ e ∈ r.projection, ∀ ref ∈ e.refs, Name.clash ref.2 name = true →
      ∃ b ∈ x.memo.entries, b.outputName = some ref.2

end Query

theorem Edit.replacePaging_hides {column : String} {x : Query} {s : Session} {d : Draft} (hx : x.needsNumbering = true)
    (h : replacePaging column ⟨x, s⟩ = .ok () d) : x.HidesRowNumber d.query := by
  obtain ⟨t, p, p', c, copies, added, bounds, s', d', -, hmoved, hshows, hnumber, hd⟩ := replacePaging_moved h
  obtain ⟨n, hisolated, u, numbers, rowNumber, hn, -, rfl⟩ := numberRows_isolated hnumber
  have hname : c.name = some t := by rw [hmoved.child]
  obtain rfl : u = t := Option.some.inj (hn.name.symm.trans (hisolated.name.trans hname))
  obtain ⟨slot, hslot, hnumber', name, houtput, rfl, hfree⟩ := hn.slot
  have hnumbers := hnumber'.numbersRows
  -- No slot of the query has the name of the row number.
  have hdiffers : ∀ e ∈ copies, ∀ m, e.outputName = some m → Text.lowercase m ≠ Text.lowercase name := by
    intro e he m hm
    have hprojection : c.projection = copies ++ added := by rw [hmoved.child]
    rcases hfree with hold | hnew
    · -- The row number has been there for a sort key or a member.
      have hmem := hisolated.mem_of_numbersRows hold hnumbers
      have hnamed := hmoved.named
      rw [hprojection] at hmem hnamed
      rcases List.mem_append.1 hmem with hcopy | hadded
      · have hcopies : slot.numbersRows = false :=
          hmoved.copies.numbersRows (Query.needsNumbering_iff.1 hx).2 hcopy
        rw [hcopies] at hnumbers
        cases hnumbers
      · exact hnamed.lowercase_ne he hadded hm houtput
    · intro heq
      apply hnew
      rw [← heq]
      apply List.mem_map_of_mem
      apply hisolated.mem_slotNames hmoved.named _ hm
      rw [hprojection]
      exact List.mem_append_left _ he
  -- The wildcard is left only where there is nothing to show in its place.
  have houtput' : (d.query.starred = true ↔ copies ++ (if x.wild then x.memo.entries else []) = []) ∧
      (d.query.projection = [] ↔ copies ++ (if x.wild then x.memo.entries else []) = []) := by
    rw [hd]
    cases hshows with
    | fixed hshown hfixed => simp [hshown, hfixed.ne_nil hshown]
    | kept hnone => simp [hnone, hmoved.passes.projection, hmoved.passes.starred]
  rw [hmoved.shown_eq_nil] at houtput'
  refine ⟨u, d'.query, slot, name, ?_, ?_, hslot, hnumbers, houtput, ?_, houtput'.1, houtput'.2, ?_⟩
  · rw [hd]
  · rw [hn.eq]
    exact hn.name
  · rw [hd, hisolated.limit, hisolated.offset, hmoved.child]
  · -- A reference by the name of the row number is one to what is bound.
    intro e he ref href hclash
    rw [hd] at he
    cases hshows with
    | fixed _ hfixed =>
      obtain ⟨-, b, hb, hbname⟩ := hfixed.refs he href
      rcases List.mem_append.1 hb with hcopy | hbound
      · rw [Name.clash_iff] at hclash
        exact absurd hclash (hdiffers b hcopy ref.2 hbname)
      · refine ⟨b, ?_, hbname⟩
        by_cases hwild : x.wild = true
        · rw [if_pos hwild] at hbound
          exact hbound
        · rw [if_neg hwild] at hbound
          cases hbound
    | kept _ =>
      change e ∈ p.projection at he
      rw [hmoved.passes.projection] at he
      cases he

/-! ## The whole pass -/

open PagingPass (Goes step)

/-- A pass that succeeds comes to each query, once all below it is treated. Where the rows of the query have to be
numbered, the number is hidden from what is left of it, and this is in the tree at the end. -/
theorem replacePaging_hides_rowNumber {dialect : Dialect} (hwithout : dialect.hasOffset = false)
    (hwindows : dialect.hasWindows = true) {named n : Nat} {q : Query} {s : Session}
    (h : (dialect.replacePaging named q s).result = .ok n) :
    (∀ x₀, .enter x₀ ∈ q.events none → ∃ x p, Query.Visits step x p q { session := s, named } ∧
      Query.PassedBelow step Goes x₀ x ∧ x.needsNumbering = x₀.needsNumbering) ∧
    ∀ x p, Query.Visits step x p q { session := s, named } → x.needsNumbering = true →
      x.HidesRowNumber (step x p).1 ∧
      ∃ y, .enter y ∈ (dialect.replacePaging named q s).query.events none ∧
        (y = (step x p).1 ∨ y.beq (step x p).1 = true) := by
  simp only [Query.enter_mem_events]
  rw [Dialect.replacePaging_query hwithout hwindows]
  have hgoes := Dialect.goes_of_ok hwithout hwindows h
  refine ⟨fun x₀ hx₀ => ?_, fun x p hx hneeds => ⟨?_, hx.has hgoes⟩⟩
  · obtain ⟨x, p, hx, hpassed⟩ := q.visits_exists PagingPass.goes_back hgoes x₀ hx₀
    exact ⟨x, p, hx, hpassed, hpassed.needsNumbering⟩
  · have htreated := (PagingPass.step_cases (hx.ok_after PagingPass.goes_back hgoes)).2
    generalize (step x p).1 = r at htreated ⊢
    cases htreated with
    | kept hkept =>
      rw [hkept] at hneeds
      cases hneeds
    | replaced _ hd => exact Edit.replacePaging_hides hneeds hd

/-- A page of people by name, nested in a query over all its columns, and under EXISTS all orders but one. The
people have an identifier to show; the orders have nothing, and stay a wildcard over the row number. -/
theorem replacePaging_hides_rowNumber_below_wildcard :
    let people : Query := {
      tables := [.base "People" none "p" (some ⟨1⟩)]
      projection := [.column "p" (some ⟨1⟩) "Id" .int32]
      orderBy := [⟨.column "p" (some ⟨1⟩) "Name" .text, .asc⟩]
      limit := some (.int 5)
      offset := some (.int 2)
      name := some "t" }
    let orders : Query := { tables := [.base "Orders" none "o" (some ⟨2⟩)], offset := some (.int 1) }
    let q : Query := { tables := [.nested people], predicate := some (.exist orders), starred := true }
    let r := Dialect.withoutOffset.replacePaging 0 q {}
    r.result = .ok 2 ∧
      (∃ x p, Query.Visits step x p q { session := {}, named := 0 } ∧ x.name = some "t" ∧
        x.HidesRowNumber (step x p).1 ∧ (step x p).1.starred = false ∧
        ∃ y, .enter y ∈ r.query.events none ∧ (y = (step x p).1 ∨ y.beq (step x p).1 = true)) ∧
      ∃ x p, Query.Visits step x p q { session := {}, named := 0 } ∧ x.name = none ∧
        x.HidesRowNumber (step x p).1 ∧ (step x p).1.starred = true ∧
        ∃ y, .enter y ∈ r.query.events none ∧ (y = (step x p).1 ∨ y.beq (step x p).1 = true) := by
  intro people orders q r
  have hrun : r.result = .ok 2 := by decide +kernel
  obtain ⟨hreached, hhides⟩ := @replacePaging_hides_rowNumber .withoutOffset rfl rfl 0 2 q {} hrun
  have hchildren : q.children = [people, orders] := rfl
  have hentered : ∀ c ∈ q.children, .enter c ∈ q.events none := by
    intro c hc
    rw [Query.enter_mem_events, Query.mem_queries_iff]
    exact .inr ⟨c, hc, Query.self_mem_queries c⟩
  refine ⟨hrun, ?_, ?_⟩
  · obtain ⟨x, p, hx, hpassed, hneeds⟩ := hreached people (hentered people (by simp [hchildren]))
    obtain ⟨hhidden, hleft⟩ := hhides x p hx hneeds
    have hname : x.name = people.name := by rw [hpassed.same]
    have hslots : x.projection ≠ [] := by
      rw [← List.length_pos_iff, ← hpassed.projection.length_eq]
      decide
    obtain ⟨_, _, _, _, _, _, _, _, _, _, hstarred, -⟩ := id hhidden
    have hfixed : (step x p).1.starred = false := by
      rw [← Bool.not_eq_true, hstarred, not_and]
      exact fun hnil => absurd hnil hslots
    exact ⟨x, p, hx, hname, hhidden, hfixed, hleft⟩
  · obtain ⟨x, p, hx, hpassed, hneeds⟩ := hreached orders (hentered orders (by simp [hchildren]))
    obtain ⟨hhidden, hleft⟩ := hhides x p hx hneeds
    have hname : x.name = orders.name := by rw [hpassed.same]
    have hslots : x.projection = [] := List.length_eq_zero_iff.1 hpassed.projection.length_eq.symm
    have hmemo : x.memo.entries = [] := by rw [hpassed.same]
    obtain ⟨_, _, _, _, _, _, _, _, _, _, hstarred, -⟩ := id hhidden
    exact ⟨x, p, hx, hname, hhidden, hstarred.2 ⟨hslots, hmemo⟩, hleft⟩

/-- A page of all there is of people: no column is known that the wildcard could be fixed to, and it
stands for the row number too. -/
theorem replacePaging_shows_rowNumber :
    let q : Query := { tables := [.base "People" none "p" (some ⟨1⟩)], offset := some (.int 2) }
    let r := Dialect.withoutOffset.replacePaging 0 q {}
    q.Composed ∧ r.result = .ok 1 ∧ r.query.starred = true ∧
      ∃ c, r.query.tables = [.nested c] ∧ c.projection.any Expr.numbersRows = true := by
  intro q r
  have hq : q.Composed := (Query.Composed.fresh none).apply (.appendTable (.base "People" none "p" (some ⟨1⟩)))
    |>.apply (.startAfter (some (.int 2)))
  exact ⟨hq, by decide +kernel, by decide +kernel, _, rfl, by decide +kernel⟩

end QueryTree
