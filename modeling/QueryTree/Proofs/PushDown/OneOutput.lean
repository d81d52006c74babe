/-
The rows that one new output is computed over. Where the query is pushed down first they are the rows that
it has returned, because all of its clauses stay with the nested query, wildcards or not. A limit or DISTINCT
has the query pushed down; an offset alone does not and is left to apply to the new output.
-/
import QueryTree.Proofs.Composed
import QueryTree.Proofs.PushDown.Rows
import QueryTree.Proofs.PushDown.Scope

namespace QueryTree

variable {V : Type} {I : Interpretation V} {outer : List (List (Part V))}

/-! ## Tables of a row -/

section Parts

variable [DecidableEq V]

/-- What a table contributes is under its name. -/
theorem Table.table_of_mem_parts : ∀ {t : Table} {outer : List (List (Part V))} {left : List (Part V)} {part : Part V},
    part ∈ t.parts I outer left → part.table = t.name
  | .base .., _, _, _, h => by
    obtain ⟨values, -, rfl⟩ := List.mem_map.1 h
    rfl
  | .join kind target condition, _, _, _, h => by
    rw [Table.parts] at h
    generalize (if kind = .crossLateral then _ else _) = outside at h
    split at h
    · rw [List.mem_singleton.1 h]
      rfl
    · exact table_of_mem_parts (t := target) (List.mem_filter.1 h).1
  | .nested q, _, _, _, h => by
    rw [Table.parts] at h
    obtain ⟨values, -, rfl⟩ := List.mem_map.1 h
    rfl

theorem tables_of_mem_fromRows : ∀ {ts : List Table} {rows : List (List (Part V))} {row : List (Part V)},
    row ∈ fromRows I outer ts rows → ∃ left ∈ rows, row.map Part.table = left.map Part.table ++ ts.map Table.name
  | [], _, row, h => ⟨row, h, (List.append_nil _).symm⟩
  | t :: ts, rows, row, h => by
    rw [fromRows] at h
    obtain ⟨left', hleft', htables⟩ := tables_of_mem_fromRows h
    obtain ⟨left, hleft, hpart⟩ := List.mem_flatMap.1 hleft'
    obtain ⟨part, hmem, rfl⟩ := List.mem_map.1 hpart
    refine ⟨left, hleft, ?_⟩
    rw [htables, List.map_append, List.map_singleton, t.table_of_mem_parts hmem, List.map_cons, List.append_assoc,
      List.singleton_append]

theorem Query.tables_of_mem_scopes {q : Query} {s : Scope V} (h : s ∈ q.scopes I outer) :
    s.row.map Part.table = q.tables.map Table.name := by
  have hrow : s.row ∈ fromRows I outer q.tables [[]] := (List.mem_filter.1 (mem_scopesOf h).1).1
  obtain ⟨left, hleft, htables⟩ := tables_of_mem_fromRows hrow
  rw [htables, List.mem_singleton.1 hleft]
  rfl

end Parts

namespace Query

/-! ## The output below a push-down -/

/-- Turned on, the wildcard shows what the query outputs as it is: it is on already, or there are slots, or
no table has been chosen that it would be limited to. -/
def ShowsItself (q : Query) : Prop := q.starred = true ∨ q.projection ≠ [] ∨ q.wildcardChoice = none

/-- Without a choice the wildcard takes in all tables. -/
theorem wildcardOf_wildcardTable {α : Type} {q : Query} {parts : List (Option String × List α)}
    (hchoice : q.wildcardChoice = none) (hparts : parts.map Prod.fst = q.tables.map Table.name) :
    wildcardOf q.wildcardTable parts = wildcardOf none parts := by
  unfold wildcardTable
  rw [hchoice]
  rcases htables : q.tables with _ | ⟨t, _ | ⟨u, ts⟩⟩
  · rfl
  · rw [htables] at hparts
    obtain ⟨part, rfl, hpart⟩ := List.map_eq_singleton_iff.1 hparts
    simp [wildcardOf, hpart]
  · rfl

/-- Names of slots do not matter to the values. -/
theorem flatMap_slotColumns_congr (hI : I.Lawful) {parts : List (Option String × List V)} {s : Scope V} :
    ∀ {es copies : List Expr}, copies.map Expr.unnamed = es.map Expr.unnamed →
      copies.map Expr.isStar = es.map Expr.isStar →
      copies.flatMap (slotColumns parts (I.eval · s)) = es.flatMap (slotColumns parts (I.eval · s))
  | [], [], _, _ => rfl
  | [], _ :: _, h, _ | _ :: _, [], h, _ => by cases h
  | e :: es, copy :: copies, hvalues, hstars => by
    rw [List.map_cons, List.map_cons] at hvalues hstars
    obtain ⟨hvalue, hvalues⟩ := List.cons.inj hvalues
    obtain ⟨hstar, hstars⟩ := List.cons.inj hstars
    have hhead : slotColumns parts (I.eval · s) copy = slotColumns parts (I.eval · s) e := by
      by_cases he : e.isStar = true
      · -- Wildcards have no names that could differ.
        cases e with
        | star table =>
          cases copy with
          | star table' => rw [show table' = table from Expr.star.inj hvalue]
          | _ => cases hstar
        | _ => cases he
      · rw [Bool.not_eq_true] at he
        rw [slotColumns_of_not_star he, slotColumns_of_not_star (hstar.trans he),
          (Expr.SameValue.of_unnamed_eq hvalue).eval_eq hI s]
    rw [List.flatMap_cons, List.flatMap_cons, hhead, flatMap_slotColumns_congr hI hvalues hstars]

namespace Moved

variable {t : String} {q p c : Query} {copies added : List Expr}

theorem added_eq_nil_iff (h : Moved t q p c copies added) :
    added = [] ↔ c.projection.length = q.projection.length := by
  rw [h.projection, List.length_append, h.copies_length, Nat.add_eq_left, List.length_eq_zero_iff]

theorem scopes_eq [DecidableEq V] (h : Moved t q p c copies added) : c.scopes I outer = q.scopes I outer := by
  rw [h.child]
  rfl

theorem paged_eq [DecidableEq V] (h : Moved t q p c copies added) (rows : List (List V)) :
    c.paged I outer rows = q.paged I outer rows := by
  rw [h.child]
  rfl

/-- The nested query outputs what the old one did, and after it the slots for sort keys and members. -/
theorem outputRow_eq (hI : I.Lawful) (hq : q.ShowsItself) (h : Moved t q p c copies added) {s : Scope V}
    (hs : s.row.map Part.table = q.tables.map Table.name) :
    c.outputRow I s = q.outputRow I s ++ added.map (I.eval · s) := by
  have hparts : (s.row.map fun p => (p.table, p.values)).map Prod.fst = q.tables.map Table.name := by
    rw [← hs, List.map_map]
    rfl
  have hadded : ∀ parts : List (Option String × List V),
      added.flatMap (slotColumns parts (I.eval · s)) = added.map (I.eval · s) := by
    intro parts
    rw [List.map_eq_flatMap]
    exact List.flatMap_congr fun slot hslot =>
      slotColumns_of_not_star (Expr.isStar_of_outputName (h.addedNamed slot hslot))
  have hchoice : c.wildcardTable = q.wildcardTable := by
    rw [h.child]
    rfl
  have hstarred : c.starred = q.wild := by rw [h.child]
  unfold outputRow columnsOf
  rw [hchoice, hstarred, h.projection, List.flatMap_append, hadded,
    flatMap_slotColumns_congr hI h.copies.values h.copies.stars, ← List.append_assoc]
  -- What is left is the wildcard, which also stands for an empty projection.
  congr 2
  unfold wild
  rcases hstar : q.starred with _ | _
  · rcases hslots : q.projection with _ | ⟨slot, slots⟩
    · rcases hq with hq | hq | hq
      · rw [hstar] at hq
        cases hq
      · exact absurd hslots hq
      · simpa using wildcardOf_wildcardTable hq hparts
    · have hcopies : copies ≠ [] := by
        apply List.ne_nil_of_length_pos
        rw [h.copies_length, hslots]
        exact Nat.succ_pos _
      simp [hcopies]
  · simp

end Moved

/-! ## The rows below a push-down -/

/-- The rows that the expressions of `r` see are those that `q` returns, perhaps with more values after
them, and in another order where nothing depends on it. -/
def SeesRows [DecidableEq V] (I : Interpretation V) (outer : List (List (Part V))) (q r : Query) : Prop :=
  ∃ rows, rows.Perm (q.rows I outer) ∧ List.Forall₂ (· <+: ·) rows ((r.scopes I outer).map Scope.only)

section Rows

variable [DecidableEq V] {t : String} {q p c : Query} {copies added : List Expr}

/-- Without a limit or DISTINCT, all rows are returned that pass WHERE, but for those that are skipped. -/
theorem rows_length (hl : q.limit = none) (hd : q.distinct = false) :
    (q.rows I outer).length = (q.scopes I outer).length - (q.offset.map (I.bound outer)).getD 0 := by
  rw [rows_eq, paged_of_not_distinct I outer hd, page, hl]
  rcases q.offset with _ | n
  · simp [(sortBy_perm _ _).length_eq]
  · simp [(sortBy_perm _ _).length_eq]

/-- With its slots at the end left out, a paged query that is not DISTINCT has the rows in their order. -/
theorem Moved.rows_prefix (hI : I.Lawful) (hq : q.ShowsItself) (hd : q.distinct = false)
    (hpaged : q.limit.isSome = true ∨ q.offset.isSome = true) (h : Moved t q p c copies added) :
    List.Forall₂ (· <+: ·) (q.rows I outer) (c.rows I outer) := by
  have hsorted : sortBy (I.compareKeys c.orderBy) (q.scopes I outer) =
      sortBy (I.compareKeys q.orderBy) (q.scopes I outer) :=
    sortBy_congr fun a _ b _ => (h.ordered hpaged).compareKeys_eq hI a b
  rw [rows_eq, rows_eq, h.paged_eq, h.scopes_eq, hsorted, paged_of_not_distinct I outer hd,
    paged_of_not_distinct I outer hd, ← map_page, ← map_page, List.forall₂_map_left_iff, List.forall₂_map_right_iff,
    List.forall₂_same]
  intro s hs
  have hscope : s ∈ q.scopes I outer := (sortBy_perm _ _).mem_iff.1 ((page_sublist I outer q _).subset hs)
  rw [h.outputRow_eq hI hq (tables_of_mem_scopes hscope)]
  exact List.prefix_append _ _

/-- With no more slots than there were, the nested query has the rows of the old one. Only if it is paged
does it sort them. -/
theorem Moved.rows_perm (hI : I.Lawful) (hq : q.ShowsItself) (hnil : added = []) (h : Moved t q p c copies added) :
    (c.rows I outer).Perm (q.rows I outer) := by
  have houtput : ∀ s ∈ q.scopes I outer, c.outputRow I s = q.outputRow I s := by
    intro s hs
    rw [h.outputRow_eq hI hq (tables_of_mem_scopes hs), hnil, List.map_nil, List.append_nil]
  rw [rows_eq, rows_eq, h.paged_eq, h.scopes_eq,
    List.map_congr_left fun s hs => houtput s ((sortBy_perm _ _).mem_iff.1 hs)]
  by_cases hpaged : q.limit.isSome = true ∨ q.offset.isSome = true
  · rw [sortBy_congr fun a _ b _ => (h.ordered hpaged).compareKeys_eq hI a b]
  · rw [not_or, Option.not_isSome_iff_eq_none, Option.not_isSome_iff_eq_none] at hpaged
    rw [paged_of_unpaged I outer hpaged.1 hpaged.2, paged_of_unpaged I outer hpaged.1 hpaged.2]
    have hperm := ((sortBy_perm (I.compareKeys c.orderBy) (q.scopes I outer)).trans
      (sortBy_perm (I.compareKeys q.orderBy) (q.scopes I outer)).symm).map (q.outputRow I)
    split
    · rw [List.perm_ext_iff_of_nodup (nodup_eraseDups _) (nodup_eraseDups _)]
      intro row
      rw [List.mem_eraseDups, List.mem_eraseDups, hperm.mem_iff]
    · exact hperm

/-- What is computed over a pushed-down query is so over the rows that it has returned. -/
theorem Moved.seesRows (hI : I.Lawful) {r : Query} (hq : q.ShowsItself) (htables : r.tables = [.nested c])
    (hpredicate : r.predicate = none)
    (hslots : q.distinct = false ∧ (q.limit.isSome = true ∨ q.offset.isSome = true) ∨
      c.projection.length = q.projection.length) (h : Moved t q p c copies added) : q.SeesRows I outer r := by
  have honly : (r.scopes I outer).map Scope.only = c.rows I outer := by
    rw [scopes_over htables, hpredicate]
    exact List.filter_eq_self.2 fun _ _ => rfl
  unfold SeesRows
  rw [honly]
  rcases hslots with ⟨hd, hpaged⟩ | hsame
  · exact ⟨_, .refl _, h.rows_prefix hI hq hd hpaged⟩
  · exact ⟨_, h.rows_perm hI hq (h.added_eq_nil_iff.2 hsame), List.forall₂_same.2 fun _ _ => List.prefix_rfl⟩

end Rows

/-- `c` has the tables and clauses of `q`. -/
structure SameClauses (q c : Query) : Prop where
  tables : c.tables = q.tables
  predicate : c.predicate = q.predicate
  limit : c.limit = q.limit
  offset : c.offset = q.offset
  distinct : c.distinct = q.distinct

theorem Moved.sameClauses {t : String} {q p c : Query} {copies added : List Expr} (h : Moved t q p c copies added) :
    SameClauses q c := by
  rw [h.child]
  exact ⟨rfl, rfl, rfl, rfl, rfl⟩

/-- Beside its output a query reduced to one output keeps all its clauses. -/
theorem projectNothing_project_sameClauses (e : Expr) (q : Query) :
    SameClauses q (q.projectNothing.project e true).2 := by
  obtain ⟨slots, keys, starred, heq⟩ := project_eq e true q.projectNothing
  rw [heq]
  exact ⟨rfl, rfl, rfl, rfl, rfl⟩

end Query

/-! ## One output -/

namespace Edit

variable [DecidableEq V]

/-- One new output is computed over the complete result, with no LIMIT, OFFSET or DISTINCT beside it, exactly
if the query has a limit, is DISTINCT, or has no offset. With one of the first two the clauses stay with a
nested query whose rows the new output sees, as far as DISTINCT has not got slots to range over that sort keys
or members have added. With neither, the new output sees all rows that pass WHERE: more than the query has
returned by those that the offset skips. -/
theorem projectOnly_complete_iff (hI : I.Lawful) (outer : List (List (Part V))) {e : Expr} {q r : Query}
    {s s' : Session} {i : Nat} (h : projectOnly e ⟨q, s⟩ = .ok i ⟨r, s'⟩) :
    (∃ slot, r.projection = [slot] ∧ slot.unnamed = e.stripCasts.unnamed) ∧
    ((r.limit = none ∧ r.offset = none ∧ r.distinct = false) ↔
      q.limit.isSome = true ∨ q.distinct = true ∨ q.offset = none) ∧
    if q.limit.isSome || q.distinct then
      ∃ c, r.tables = [.nested c] ∧ r.predicate = none ∧ q.SameClauses c ∧
        (q.distinct = false ∨ c.projection.length = q.projection.length → q.ShowsItself → q.SeesRows I outer r)
    else
      q.SameClauses r ∧ r.scopes I outer = q.scopes I outer ∧
        (q.rows I outer).length = (r.scopes I outer).length - (q.offset.map (I.bound outer)).getD 0 := by
  obtain ⟨p, rfl, hp⟩ := projectOnly_ok h
  refine ⟨p.projectNothing_project_slot e, ?_⟩
  have hclauses := p.projectNothing_project_sameClauses e
  by_cases hpush : (q.limit.isSome || q.distinct) = true
  · -- The clauses go down with the query.
    rw [if_pos hpush] at hp ⊢
    rw [Bool.or_eq_true] at hpush
    obtain ⟨t, -, hpushed⟩ := pushDown_ok hp
    obtain ⟨c, copies, added, hmoved⟩ := Query.pushedDown_moved hpushed
    constructor
    · have hnone : p.limit = none ∧ p.offset = none ∧ p.distinct = false :=
        ⟨congrArg Query.limit hmoved.parent, congrArg Query.offset hmoved.parent, congrArg Query.distinct hmoved.parent⟩
      rw [hclauses.limit, hclauses.offset, hclauses.distinct, ← or_assoc]
      exact iff_of_true hnone (.inl hpush)
    · have htables := hclauses.tables.trans (congrArg Query.tables hmoved.parent)
      have hpredicate := hclauses.predicate.trans (congrArg Query.predicate hmoved.parent)
      refine ⟨c, htables, hpredicate, hmoved.sameClauses, fun hslots hq => ?_⟩
      refine hmoved.seesRows hI hq htables hpredicate ?_
      rcases hslots with hd | hsame
      · -- A limited query without DISTINCT returns as many rows whatever slots it has.
        rw [hd] at hpush
        exact .inl ⟨hd, .inl (hpush.resolve_right Bool.false_ne_true)⟩
      · exact .inr hsame
  · -- The clauses stay where they are, an offset among them.
    rw [if_neg hpush] at hp ⊢
    obtain ⟨rfl, -⟩ := hp
    rw [Bool.not_eq_true, Bool.or_eq_false_iff, Option.isSome_eq_false_iff, Option.isNone_iff_eq_none] at hpush
    obtain ⟨hlimit, hdistinct⟩ := hpush
    have hscopes : ((p.projectNothing.project e true).2).scopes I outer = p.scopes I outer := by
      unfold Query.scopes Query.kept
      rw [hclauses.tables, hclauses.predicate]
    constructor
    · rw [hclauses.limit, hclauses.offset, hclauses.distinct, hlimit, hdistinct]
      simp
    · refine ⟨hclauses, hscopes, ?_⟩
      rw [hscopes]
      exact Query.rows_length hlimit hdistinct

/-- The number of the first two people. -/
theorem projectOnly_complete_of_limit :
    let q : Query := { tables := [.base "People" none "p" (some ⟨1⟩)], limit := some (.int 2) }
    Interpretation.people.Lawful ∧ ∃ i d, projectOnly (.call "COUNT" [.int 1] .int64) ⟨q, {}⟩ = .ok i d ∧
      (d.query.limit = none ∧ d.query.offset = none ∧ d.query.distinct = false) ∧
      q.SeesRows .people [] d.query := by
  intro q
  have hI : Interpretation.people.Lawful := Interpretation.people_numbering.toLawful
  refine ⟨hI, _, _, rfl, ?_⟩
  obtain ⟨-, hnone, hbelow⟩ := projectOnly_complete_iff hI [] (q := q) (s := {}) rfl
  rw [if_pos (by rfl)] at hbelow
  obtain ⟨c, -, -, -, hsees⟩ := hbelow
  exact ⟨hnone.2 (.inl rfl), hsees (.inl rfl) (.inr (.inr rfl))⟩

/-- Of four people the first two are skipped. The number of people is computed beside the offset, over all four,
and the one row that comes of it is skipped itself. -/
theorem projectOnly_incomplete_of_offset :
    let q : Query := { tables := [.base "People" none "p" (some ⟨1⟩)], offset := some (.int 2) }
    q.Composed ∧ ∃ i d, projectOnly (.call "COUNT" [.int 1] .int64) ⟨q, {}⟩ = .ok i d ∧
      d.query.offset = some (.int 2) ∧ d.query.tables = q.tables ∧
      (q.rows .people []).length = 2 ∧ (d.query.scopes .people []).length = 4 := by
  intro q
  have hq : q.Composed := (Query.Composed.fresh none).apply (.appendTable (.base "People" none "p" (some ⟨1⟩)))
    |>.apply (.startAfter (some (.int 2)))
  exact ⟨hq, _, _, rfl, rfl, rfl, Query.rows_length rfl rfl, rfl⟩

end Edit
end QueryTree
