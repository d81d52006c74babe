/-
The query whose rows the paging pass numbers. Without DISTINCT it is the query below the push-down;
with DISTINCT it is a query that pages the columns of the DISTINCT one. Its rows are those of the
query before the pass, and the lifted sort keys read them from its columns.
-/
import QueryTree.Proofs.Paging.Columns

namespace QueryTree

variable {V : Type} {I : Interpretation V} {outer : List (List (Part V))} [DecidableEq V]

namespace Query

/-! ## A query to be numbered -/

/-- `n`, named `t`, has the rows of `q` in its first columns. The expressions that are to be put out
above it read these columns, and the keys sort its rows as `n` does. -/
structure Stands (I : Interpretation V) (outer : List (List (Part V))) (t : String) (q n : Query)
    (output : List Expr) (keys : List OrderKey) : Prop where
  explicit : n.Explicit
  named : SlotsNamed n.projection
  distinct : n.distinct = false
  offset : n.offset = q.offset
  limit : n.limit = q.limit
  reads : n.Reads I t output
  rows : (n.rows I outer).map (List.take output.length) = q.rows I outer
  sorted : ∃ cols, List.Forall₂ (n.SortsByColumn I t) keys cols ∧
    ∀ a ∈ n.scopes I outer, ∀ b ∈ n.scopes I outer,
      I.compareKeys n.orderBy a b = I.compareColumns cols (n.outputRow I a) (n.outputRow I b)

namespace Sunk

variable {t : String} {q p c : Query} {copies added : List Expr}

omit [DecidableEq V] in
theorem columnNames_eq (hq : q.Explicit) (h : Sunk t q p c copies added) :
    c.columnNames I = copies.map Expr.outputName ++ added.map Expr.outputName := by
  rw [(h.explicit hq).columnNames_eq, h.projection, List.map_append]

omit [DecidableEq V] in
theorem copies_named (hq : q.Explicit) (h : Sunk t q p c copies added) : ∀ e ∈ copies, e.outputName.isSome = true :=
  fun e he => h.copies.named.named e he (h.copies.noStar hq.noStar e he)

/-- Without DISTINCT it is the query below the push-down. -/
theorem stands (hI : I.Lawful) (hq : q.Explicit) (hd : q.distinct = false) (ho : q.offset.isSome = true)
    (h : Sunk t q p c copies added) : Stands I outer t q c (references t copies) p.orderBy := by
  obtain ⟨cols, hread, hsort⟩ := exists_columns hI (h.explicit hq) h.keys
  refine ⟨h.explicit hq, h.named, by rw [h.child]; exact hd, by rw [h.child], by rw [h.child],
    reads_references (h.copies_named hq) ?_, ?_, cols, hsort, fun a _ b _ => ?_⟩
  · rw [h.columnNames_eq hq]; exact List.prefix_append _ _
  · rw [references, List.length_map, h.copies_length]
    exact h.child_rows hI hq hd (.inr ho)
  · rw [(h.ordered (.inr ho)).compareKeys_eq hI a b, compareKeys_of_readFrom hread]

/-- Where nothing is added the query below a push-down outputs what the old one does. -/
theorem child_rows_of_nothing_added (hI : I.Lawful) (hq : q.Explicit)
    (hpaged : q.limit.isSome = true ∨ q.offset.isSome = true) (h : Sunk t q p c copies []) :
    c.rows I outer = q.rows I outer := by
  have hrow : c.outputRow I = q.outputRow I := by
    funext s; rw [h.outputRow_eq hI hq, List.map_nil, List.append_nil]
  rw [Query.rows_eq, h.paged_eq, h.scopes_eq, hrow, h.unchanged hpaged rfl, ← Query.rows_eq]

end Sunk

/-- `c` has been pushed down without its paging and left `m` over `e`, which has the slots of `c`. In
`n` the wildcard of `m` is references to these, and the paging is back. -/
structure Repaged (u : String) (c m e n : Query) (copies : List Expr) : Prop where
  sunk : Sunk u { c with limit := none, offset := none } m e copies []
  slots : e.projection = c.projection
  eq : n = { m with projection := references u e.projection, starred := false, limit := c.limit, offset := c.offset }

theorem repaged {u : String} {c m e n : Query} {copies added : List Expr} (hm : c.members = [])
    (hcover : ∀ k ∈ c.orderBy, c.covers k.expr = true) (hslots : SlotsNamed c.projection)
    (h : Sunk u { c with limit := none, offset := none } m e copies added)
    (hn : n = { m with
      projection := references u e.projection, starred := false, limit := c.limit, offset := c.offset }) :
    Repaged u c m e n copies := by
  obtain rfl : added = [] := h.added_eq_nil.2 ⟨hcover, by simp [hm]⟩
  refine ⟨h, ?_, hn⟩
  rw [h.projection, List.append_nil, h.copies.unchanged hslots]

namespace Repaged

variable {u : String} {c m e n : Query} {copies : List Expr}

omit [DecidableEq V] in
theorem explicit (hc : c.Explicit) (h : Repaged u c m e n copies) : n.Explicit := by
  refine ⟨by rw [h.eq], ?_, ?_⟩ <;> rw [h.eq]
  · simpa [references, h.slots] using hc.projects
  · exact references_noStar

omit [DecidableEq V] in
theorem explicit_below (hc : c.Explicit) (h : Repaged u c m e n copies) : e.Explicit :=
  h.sunk.explicit (q := { c with limit := none, offset := none }) ⟨hc.notStarred, hc.projects, hc.noStar⟩

omit [DecidableEq V] in
theorem all_named (hc : c.Explicit) (h : Repaged u c m e n copies) : ∀ x ∈ e.projection, x.outputName.isSome = true :=
  fun x hx => h.sunk.named.named x hx ((h.explicit_below hc).noStar x hx)

omit [DecidableEq V] in
theorem columnNames_eq (hc : c.Explicit) (h : Repaged u c m e n copies) : n.columnNames I = c.columnNames I := by
  rw [(h.explicit hc).columnNames_eq, h.eq, outputName_references (h.all_named hc), h.slots, hc.columnNames_eq]

omit [DecidableEq V] in
theorem outputRow_below (hc : c.Explicit) (h : Repaged u c m e n copies) : e.outputRow I = c.outputRow I := by
  funext s; rw [(h.explicit_below hc).outputRow_eq, hc.outputRow_eq, h.slots]

theorem scopes_eq (h : Repaged u c m e n copies) : n.scopes I outer = m.scopes I outer := by rw [h.eq]; rfl

theorem outputRow_eq (hI : I.Lawful) (hc : c.Explicit) (h : Repaged u c m e n copies) {s : Scope V}
    (hs : s ∈ m.scopes I outer) : n.outputRow I s = s.only := by
  have he := h.explicit_below hc
  have haddr : e.Addressable I outer u := he.addressable h.sunk.passes.name h.sunk.named
  have hreads : e.Reads I u n.projection := by
    rw [h.eq]; exact reads_references (h.all_named hc) (by rw [he.columnNames_eq])
  rw [outputRow_of_reads hI (h.explicit hc) (by rw [h.eq]; exact h.sunk.passes.tables) haddr hreads
    (by rw [h.scopes_eq]; exact hs), List.take_of_length_le]
  rw [haddr.width _ (row_eq_asRow h.sunk.passes.tables hs).2, he.columnNames_eq, h.eq, references, List.length_map,
    List.length_map]

theorem rows_eq (hI : I.Lawful) (hc : c.Explicit) (h : Repaged u c m e n copies) :
    n.rows I outer = c.rows I outer := by
  have hm : m.rows I outer = (sortBy (I.compareKeys m.orderBy) (m.scopes I outer)).map (n.outputRow I) := by
    rw [Query.rows_eq, paged_of_unpaged I outer (by rw [h.sunk.parent]) (by rw [h.sunk.parent]),
      if_neg (by rw [h.sunk.parent]; simp)]
    refine List.map_congr_left fun s hs => ?_
    have hs' := (sortBy_perm _ _).mem_iff.1 hs
    rw [h.sunk.passes.outputRow_eq hs', h.outputRow_eq hI hc hs']
  have hpage : n.rows I outer = n.page I outer (m.rows I outer) := by
    rw [Query.rows_eq, h.scopes_eq, paged_of_not_distinct I outer (by rw [h.eq, h.sunk.parent]), hm, h.eq]
  have hc' : { c with limit := none, offset := none }.Explicit := ⟨hc.notStarred, hc.projects, hc.noStar⟩
  rw [hpage, h.sunk.rows_eq hI hc', paged_of_unpaged I outer (by rw [h.sunk.child]) (by rw [h.sunk.child]),
    h.outputRow_below hc, Query.rows_eq, paged, h.eq, h.sunk.child]
  rfl

/-- The rows that are paged compare by columns as the rows do that they have come from. -/
theorem compareKeys_eq (hI : I.Lawful) (hc : c.Explicit) (h : Repaged u c m e n copies) {cols : List (Nat × Direction)}
    (hread : List.Forall₂ (c.ReadFrom I) c.orderBy cols) {a b : Scope V} (ha : a ∈ n.scopes I outer)
    (hb : b ∈ n.scopes I outer) :
    I.compareKeys n.orderBy a b = I.compareColumns cols (n.outputRow I a) (n.outputRow I b) := by
  have he := h.explicit_below hc
  have haddr : e.Addressable I outer u := he.addressable h.sunk.passes.name h.sunk.named
  rw [h.scopes_eq] at ha hb
  obtain ⟨cols', hread', hsort'⟩ := exists_columns hI he h.sunk.keys
  obtain ⟨s₁, -, hs₁⟩ := exists_outputRow (row_eq_asRow h.sunk.passes.tables ha).2
  obtain ⟨s₂, -, hs₂⟩ := exists_outputRow (row_eq_asRow h.sunk.passes.tables hb).2
  have horder : n.orderBy = m.orderBy := by rw [h.eq]
  calc I.compareKeys n.orderBy a b
      = I.compareColumns cols' a.only b.only := by
        rw [horder, compareKeys_over hI h.sunk.passes.tables haddr hsort' ha hb]
    _ = I.compareKeys c.orderBy s₁ s₂ := by
        rw [← hs₁, ← hs₂, ← compareKeys_of_readFrom hread']
    _ = I.compareColumns cols (n.outputRow I a) (n.outputRow I b) := by
        rw [compareKeys_of_readFrom hread, h.outputRow_eq hI hc ha, h.outputRow_eq hI hc hb, ← hs₁, ← hs₂,
          h.outputRow_below hc]

end Repaged

/-- With DISTINCT it is a query over the DISTINCT one, which is pushed down once more. -/
theorem Sunk.stands_distinct {t u : String} {q p c m e n : Query} {copies copies' added' : List Expr} (hI : I.Lawful)
    (hq : q.Explicit) (ho : q.offset.isSome = true) (h : Sunk t q p c copies [])
    (h' : Sunk u { c with limit := none, offset := none } m e copies' added')
    (hn : n = { m with
      projection := references u e.projection, starred := false, limit := c.limit, offset := c.offset }) :
    Stands I outer t q n (references t copies) p.orderBy := by
  have hpaged : q.limit.isSome = true ∨ q.offset.isSome = true := .inr ho
  have hc := h.explicit hq
  have horder : c.orderBy = q.orderBy := h.unchanged hpaged rfl
  have hcover : ∀ x, c.covers x = q.covers x :=
    covers_congr (by rw [h.projection, List.append_nil]; exact h.copies.values)
  have hr : Repaged u c m e n copies' := repaged (by rw [h.child])
    (fun k hk => (hcover _).trans ((h.added_eq_nil.1 rfl).1 k (horder ▸ hk))) h.named h' hn
  obtain ⟨cols, hread, hsort⟩ := exists_columns hI hc h.keys
  refine ⟨hr.explicit hc, ?_, by rw [hn, h'.parent], by rw [hn, h.child], by rw [hn, h.child], ?_, ?_, cols, ?_,
    fun a ha b hb => hr.compareKeys_eq hI hc (horder ▸ hread) ha hb⟩
  · rw [hn]; exact slotsNamed_references h'.named (hr.all_named hc)
  · refine reads_references (h.copies_named hq) ?_
    rw [hr.columnNames_eq hc, h.columnNames_eq hq, List.map_nil, List.append_nil]
  · rw [hr.rows_eq hI hc, h.child_rows_of_nothing_added hI hq hpaged, references, List.length_map, h.copies_length,
      hq.map_take_rows]
  · refine hsort.imp fun _ _ hcol => hcol.widen ?_
    rw [hr.columnNames_eq hc]

end Query
end QueryTree
