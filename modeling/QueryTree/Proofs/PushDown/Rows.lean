/-
Push-down keeps the rows of a query. The enclosing query sorts the rows of the nested one by the
columns that the lifted keys refer to: where the nested query is paged it has sorted them like that
before, where it is not it has left them unsorted.
-/
import QueryTree.Proofs.PushDown.Sunk
import QueryTree.Proofs.Rows.Integers
import QueryTree.Proofs.Rows.Nested

namespace QueryTree

variable {V : Type} {I : Interpretation V} {outer : List (List (Part V))}

/-! ## Values -/

theorem Expr.SameValue.eval_eq (hI : I.Lawful) {a b : Expr} (h : a.SameValue b) (s : Scope V) :
    I.eval a s = I.eval b s := by
  induction h with
  | refl => rfl
  | symm _ ih => exact ih.symm
  | trans _ _ ih ih' => exact ih.trans ih'
  | named name e => exact hI.named name e s
  | casts e => exact hI.casts e s
  | equiv h => exact hI.equiv h s

theorem Query.SameKeys.compareKeys_eq (hI : I.Lawful) {ks ls : List OrderKey} (h : Query.SameKeys ks ls)
    (a b : Scope V) : I.compareKeys ls a b = I.compareKeys ks a b := by
  refine (compareBy_congr (f := id) ?_).symm
  rw [List.forall₂_map_left_iff, List.forall₂_map_right_iff]
  exact h.imp fun k l hkl => ⟨hkl.1.symm, (hkl.2.eval_eq hI a).symm, (hkl.2.eval_eq hI b).symm⟩

namespace Query

/-! ## Keys and the columns that they are read from -/

/-- In the output of `c` the column has the value of the key. -/
def ReadFrom (I : Interpretation V) (c : Query) (key : OrderKey) (col : Nat × Direction) : Prop :=
  key.direction = col.2 ∧ ∀ s, (c.outputRow I s)[col.1]? = some (I.eval key.expr s)

theorem compareKeys_of_readFrom {c : Query} {keys : List OrderKey} {cols : List (Nat × Direction)}
    (h : List.Forall₂ (c.ReadFrom I) keys cols) (a b : Scope V) :
    I.compareKeys keys a b = I.compareColumns cols (c.outputRow I a) (c.outputRow I b) := by
  refine compareBy_congr ?_
  rw [List.forall₂_map_left_iff, List.forall₂_map_right_iff]
  refine h.imp fun key col ⟨hd, hv⟩ => ⟨hd, ?_, ?_⟩
  · simp only [List.getD_eq_getElem?_getD, hv a, Option.getD_some]
  · simp only [List.getD_eq_getElem?_getD, hv b, Option.getD_some]

/-- A lifted expression refers to a column of the nested query that has the value of the expression. -/
theorem LiftedTo.column (hI : I.Lawful) {t : String} {c : Query} {e e' : Expr} (hc : c.Explicit)
    (h : LiftedTo t c e e') : ∃ i : Nat, (∃ name type, e' = .output t name type ∧
      (c.columnNames I)[i]? = some (some name)) ∧ ∀ s, (c.outputRow I s)[i]? = some (I.eval e s) := by
  obtain ⟨i, slot, name, hi, hname, he, hv⟩ := h
  refine ⟨i, ⟨name, slot.type, he, ?_⟩, fun s => ?_⟩
  · rw [hc.columnNames_eq, List.getElem?_map, hi, Option.map_some, hname]
  · rw [hc.outputRow_eq, List.getElem?_map, hi, Option.map_some, hv.eval_eq hI]

theorem exists_columns (hI : I.Lawful) {t : String} {c : Query} (hc : c.Explicit) {keys keys' : List OrderKey}
    (h : List.Forall₂ (fun k k' => k'.direction = k.direction ∧ LiftedTo t c k.expr k'.expr) keys keys') :
    ∃ cols, List.Forall₂ (c.ReadFrom I) keys cols ∧ List.Forall₂ (c.SortsByColumn I t) keys' cols := by
  induction h with
  | nil => exact ⟨[], .nil, .nil⟩
  | cons hk _ ih =>
    obtain ⟨cols, hread, hsort⟩ := ih
    obtain ⟨i, hname, hv⟩ := hk.2.column hI hc
    exact ⟨(i, _) :: cols, .cons ⟨rfl, hv⟩ hread, .cons ⟨hk.1, hname⟩ hsort⟩

theorem sortBy_compareKeys_nil (l : List (Scope V)) : sortBy (I.compareKeys []) l = l :=
  sortBy_of_pairwise (List.pairwise_of_forall fun _ _ => rfl)

variable [DecidableEq V]

/-! ## Sorting twice -/

/-- The nested query has the rows in the order of `keys` if it is paged, and unsorted else. -/
def Sorts (I : Interpretation V) (c : Query) (keys : List OrderKey) : Prop :=
  (c.limit = none ∧ c.offset = none ∧ c.orderBy = []) ∨ ∀ a b, I.compareKeys c.orderBy a b = I.compareKeys keys a b

/-- A nested query, sorted once more by the columns that the keys are read from. -/
theorem sortBy_rows (hI : I.Lawful) {c : Query} {keys : List OrderKey} {cols : List (Nat × Direction)}
    (hread : ∀ a ∈ c.scopes I outer, ∀ b ∈ c.scopes I outer,
      I.compareKeys keys a b = I.compareColumns cols (c.outputRow I a) (c.outputRow I b))
    (hc : c.Sorts I keys) : sortBy (I.compareColumns cols) (c.rows I outer) =
      c.paged I outer ((sortBy (I.compareKeys keys) (c.scopes I outer)).map (c.outputRow I)) := by
  have := hI.compare
  have hcmp : Std.TransCmp (I.compareColumns cols) := transCmp_compareBy ..
  have hmap : (sortBy (I.compareKeys keys) (c.scopes I outer)).map (c.outputRow I) =
      sortBy (I.compareColumns cols) ((c.scopes I outer).map (c.outputRow I)) :=
    map_sortBy hread
  rcases hc with ⟨hl, ho, hkeys⟩ | hkeys
  · -- Nothing is paged below, so duplicates may go before the rows are sorted or after.
    rw [rows_eq, hkeys, sortBy_compareKeys_nil, hmap, paged_of_unpaged I outer hl ho, paged_of_unpaged I outer hl ho]
    split
    · exact (eraseDups_sortBy _ _).symm
    · rfl
  · -- Paging takes rows out of a sorted list and leaves it sorted.
    rw [rows_eq, sortBy_congr fun a _ b _ => hkeys a b, hmap]
    exact sortBy_of_pairwise ((sortBy_pairwise (I.compareColumns cols) _).sublist (paged_sublist I outer c _))

/-! ## Push-down without a wildcard -/

namespace Sunk

variable {t : String} {q p c : Query} {copies added : List Expr}

omit [DecidableEq V] in
theorem passes (h : Sunk t q p c copies added) : Passes t p c where
  tables := by rw [h.parent]
  name := by rw [h.child]
  starred := by rw [h.parent]
  choice := by rw [h.parent]
  projection := by rw [h.parent]
  predicate := by rw [h.parent]

omit [DecidableEq V] in
theorem projection (h : Sunk t q p c copies added) : c.projection = copies ++ added := by rw [h.child]

omit [DecidableEq V] in
theorem copies_length (h : Sunk t q p c copies added) : copies.length = q.projection.length := by
  simpa using congrArg List.length h.copies.values

omit [DecidableEq V] in
theorem explicit (hq : q.Explicit) (h : Sunk t q p c copies added) : c.Explicit where
  notStarred := by rw [h.child]; exact hq.notStarred
  projects := by
    rw [h.projection]
    exact List.append_ne_nil_of_left_ne_nil
      (List.ne_nil_of_length_pos (by rw [h.copies_length]; exact List.length_pos_of_ne_nil hq.projects)) _
  noStar := by
    rw [h.projection]
    exact List.forall_mem_append.2
      ⟨h.copies.noStar hq.noStar, fun e he => Expr.isStar_of_outputName (h.addedNamed e he)⟩

omit [DecidableEq V] in
/-- The copies have the values of the slots that they are copies of. -/
theorem map_eval_copies (hI : I.Lawful) (h : Sunk t q p c copies added) (s : Scope V) :
    copies.map (I.eval · s) = q.projection.map (I.eval · s) := by
  have hun : ∀ es : List Expr, es.map (I.eval · s) = (es.map Expr.unnamed).map (I.eval · s) := fun es => by
    rw [List.map_map]
    exact List.map_congr_left fun e _ => ((Expr.sameValue_unnamed e).eval_eq hI s).symm
  rw [hun, h.copies.values, ← hun]

omit [DecidableEq V] in
theorem outputRow_eq (hI : I.Lawful) (hq : q.Explicit) (h : Sunk t q p c copies added) (s : Scope V) :
    c.outputRow I s = q.outputRow I s ++ added.map (I.eval · s) := by
  rw [(h.explicit hq).outputRow_eq, hq.outputRow_eq, h.projection, List.map_append, h.map_eval_copies hI]

theorem scopes_eq (h : Sunk t q p c copies added) : c.scopes I outer = q.scopes I outer := by rw [h.child]; rfl

theorem paged_eq (h : Sunk t q p c copies added) (rows : List (List V)) :
    c.paged I outer rows = q.paged I outer rows := by rw [h.child]; rfl

theorem addressable (hq : q.Explicit) (h : Sunk t q p c copies added) : c.Addressable I outer t :=
  (h.explicit hq).addressable h.passes.name h.named

omit [DecidableEq V] in
theorem sorts (hI : I.Lawful) (h : Sunk t q p c copies added) : c.Sorts I q.orderBy := by
  by_cases hpaged : q.limit.isSome = true ∨ q.offset.isSome = true
  · exact .inr fun a b => (h.ordered hpaged).compareKeys_eq hI a b
  · rw [not_or, Option.not_isSome_iff_eq_none, Option.not_isSome_iff_eq_none] at hpaged
    refine .inl ⟨by rw [h.child]; exact hpaged.1, by rw [h.child]; exact hpaged.2, h.unordered hpaged.1 hpaged.2⟩

/-- All rows of both queries are those of the old one with the values of the added slots at the end. -/
theorem rows_eq (hI : I.Lawful) (hq : q.Explicit) (h : Sunk t q p c copies added) : p.rows I outer =
    c.paged I outer ((sortBy (I.compareKeys q.orderBy) (q.scopes I outer)).map (c.outputRow I)) := by
  obtain ⟨cols, hread, hsort⟩ := exists_columns hI (h.explicit hq) h.keys
  rw [h.passes.rows_eq hI (h.addressable hq) hsort,
    sortBy_rows hI (fun a _ b _ => compareKeys_of_readFrom hread a b) (h.sorts hI), h.scopes_eq]
  rw [h.parent]; rfl

omit [DecidableEq V] in
theorem take_outputRow (hI : I.Lawful) (hq : q.Explicit) (h : Sunk t q p c copies added) :
    List.take q.projection.length ∘ c.outputRow I = q.outputRow I := by
  funext s
  rw [Function.comp_apply, h.outputRow_eq hI hq, List.take_left' (by rw [hq.outputRow_eq, List.length_map])]

/-- A paged query pages below the push-down over the rows that it has paged over before. -/
theorem child_rows (hI : I.Lawful) (hq : q.Explicit) (hd : q.distinct = false)
    (hpaged : q.limit.isSome = true ∨ q.offset.isSome = true) (h : Sunk t q p c copies added) :
    (c.rows I outer).map (List.take q.projection.length) = q.rows I outer := by
  rw [Query.rows_eq, map_paged I outer (by rw [h.child]; exact hd), List.map_map, h.take_outputRow hI hq, h.paged_eq,
    h.scopes_eq, Query.rows_eq, sortBy_congr fun a _ b _ => (h.ordered hpaged).compareKeys_eq hI a b]

end Sunk

end Query

/-- Push-down keeps the rows of a query that is not DISTINCT. Below it a paged query pages over the
rows that it has paged over before; one that is not paged gives its order up to the enclosing query. -/
theorem rows_pushDown [DecidableEq V] (hI : I.Lawful) {q p : Query} {s s' : Session} (hd : q.distinct = false)
    (hq : q.Explicit) (h : Edit.pushDown ⟨q, s⟩ = .ok () ⟨p, s'⟩) :
    (p.rows I outer).map (List.take q.projection.length) = q.rows I outer ∧
      ∃ c, p.tables = [.nested c] ∧
        if q.limit.isSome || q.offset.isSome then
          (c.rows I outer).map (List.take q.projection.length) = q.rows I outer
        else c.orderBy = [] := by
  obtain ⟨t, -, h⟩ := Edit.pushDown_ok h
  obtain ⟨c, copies, added, h⟩ := Query.pushedDown_ok hq.notStarred hq.projects h
  refine ⟨?_, c, h.passes.tables, ?_⟩
  · rw [h.rows_eq hI hq, Query.map_paged I outer (by rw [h.child]; exact hd), List.map_map, h.take_outputRow hI hq,
      h.paged_eq, ← Query.rows_eq]
  · split
    · rename_i hpaged
      exact h.child_rows hI hq hd (by simpa using hpaged)
    · rename_i hpaged
      rw [Bool.or_eq_true, not_or, Option.not_isSome_iff_eq_none, Option.not_isSome_iff_eq_none] at hpaged
      exact h.unordered hpaged.1 hpaged.2

/-- The number that is sorted by gets a column of its own below the push-down. -/
theorem rows_pushDown_sorted_by_number :
    let q : Query := { tables := [.base "People" none "p" none], projection := [.column "p" none "Name" .text],
                       orderBy := [⟨.column "p" none "Id" .int32, .desc⟩], limit := some (.int 2) }
    q.distinct = false ∧ q.Explicit ∧ ∃ p s', Edit.pushDown ⟨q, {}⟩ = .ok () ⟨p, s'⟩ ∧
      (p.rows .people []).map (List.take 1) = q.rows .people [] := by
  intro q
  have hq : q.Explicit := ⟨rfl, List.cons_ne_nil _ _, by simp [q, Expr.isStar]⟩
  refine ⟨rfl, hq, _, _, rfl, ?_⟩
  exact (rows_pushDown Interpretation.people_numbering.toLawful (q := q) (s := {}) rfl hq rfl).1

end QueryTree
