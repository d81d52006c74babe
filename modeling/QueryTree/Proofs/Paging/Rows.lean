/-
The paging pass keeps the rows of a query. The query over the numbered one keeps the rows whose
number is within the bounds, sorts them by the lifted keys and outputs what was output before.
-/
import QueryTree.Proofs.Composed
import QueryTree.Proofs.Paging.Bounds
import QueryTree.Proofs.Paging.Pass
import QueryTree.Proofs.Paging.Repaged

namespace QueryTree

variable {V : Type} {I : Interpretation V} {outer : List (List (Part V))}

namespace Query

/-! ## The numbered query -/

namespace Numbered

variable {t : String} {n n' : Query} {added : List Expr} {rowNumber : Expr}

theorem projection (h : Numbered t n n' added rowNumber) : n'.projection = n.projection ++ added := by rw [h.eq]

theorem explicit (hn : n.Explicit) (h : Numbered t n n' added rowNumber) : n'.Explicit where
  notStarred := by rw [h.eq]; exact hn.notStarred
  projects := by rw [h.projection]; exact List.append_ne_nil_of_left_ne_nil hn.projects _
  noStar := by
    rw [h.projection]
    exact List.forall_mem_append.2 ⟨hn.noStar, fun e he => Expr.isStar_of_outputName (h.addedNamed e he)⟩

theorem outputRow_eq (hn : n.Explicit) (h : Numbered t n n' added rowNumber) (s : Scope V) :
    n'.outputRow I s = n.outputRow I s ++ added.map (I.eval · s) := by
  rw [(h.explicit hn).outputRow_eq, hn.outputRow_eq, h.projection, List.map_append]

theorem columnNames_prefix (hn : n.Explicit) (h : Numbered t n n' added rowNumber) :
    n.columnNames I <+: n'.columnNames I := by
  rw [(h.explicit hn).columnNames_eq, hn.columnNames_eq, h.projection, List.map_append]
  exact List.prefix_append _ _

variable [DecidableEq V]

theorem scopes_eq (h : Numbered t n n' added rowNumber) : n'.scopes I outer = n.scopes I outer := by rw [h.eq]; rfl

theorem rows_eq (hd : n.distinct = false) (h : Numbered t n n' added rowNumber) :
    n'.rows I outer = (n.scopes I outer).map (n'.outputRow I) := by
  rw [Query.rows_eq, h.scopes_eq, paged_of_unpaged I outer (by rw [h.eq]) (by rw [h.eq])]
  rw [if_neg (by rw [h.eq]; simpa using hd), show n'.orderBy = [] by rw [h.eq], sortBy_compareKeys_nil]

theorem addressable (hn : n.Explicit) (hslots : SlotsNamed n.projection) (h : Numbered t n n' added rowNumber) :
    n'.Addressable I outer t :=
  (h.explicit hn).addressable (by rw [h.eq]; exact h.name) (h.named hslots)

omit [DecidableEq V] in
/-- The reference to the row number reads the position of the row. -/
theorem eval_rowNumber (hI : I.Numbering) (hn : n.Explicit) (hslots : SlotsNamed n.projection)
    (h : Numbered t n n' added rowNumber) (s : Scope V) :
    I.eval rowNumber { row := n'.asRow I (n'.outputRow I s), outer } =
      I.number (I.position (numberingKeys n.orderBy) s) := by
  have hn' := h.explicit hn
  obtain ⟨i, ⟨name, type, rfl, hi⟩, hv⟩ := h.column.column hI.toLawful hn'
  rw [eval_output hI.toLawful (by rw [h.eq]; exact h.name)
    (by rw [hn'.columnNames_eq]; exact (h.named hslots).namesDiffer) rfl hi (hv s), hI.rowNumber]

end Numbered

/-! ## The query over the numbered one -/

section

variable [DecidableEq V]

/-- `p` keeps the rows of the numbered query `n'` whose number is within the bounds. -/
structure Bounded (t : String) (n n' p : Query) (rowNumber : Expr) : Prop where
  explicit : p.Explicit
  tables : p.tables = [.nested n']
  predicate : p.predicate = Expr.conjunction (rowNumber.pagingBounds n.offset n.limit)
  distinct : p.distinct = false
  limit : p.limit = none
  offset : p.offset = none

omit [DecidableEq V] in
/-- Only the columns of the nested query are looked at. -/
theorem compareColumns_take {t : String} {c : Query} {keys : List OrderKey} {cols : List (Nat × Direction)}
    (hk : List.Forall₂ (c.SortsByColumn I t) keys cols) (r s : List V) :
    I.compareColumns cols (r.take (c.columnNames I).length) (s.take (c.columnNames I).length) =
      I.compareColumns cols r s := by
  refine (compareBy_congr ?_).symm
  rw [List.forall₂_map_left_iff, List.forall₂_map_right_iff, List.forall₂_same]
  intro col hcol
  obtain ⟨key, -, -, name, type, -, hn⟩ := forall₂_mem_left hk.flip hcol
  have hi := (List.getElem?_eq_some_iff.1 hn).1
  refine ⟨rfl, ?_, ?_⟩ <;> simp only [List.getD_eq_getElem?_getD, List.getElem?_take_of_lt hi]

variable {t : String} {n n' p : Query} {added : List Expr} {rowNumber offset : Expr} {o : Nat}

theorem scopes_bounded (hI : I.Numbering) (hn : n.Explicit) (hslots : SlotsNamed n.projection)
    (hd : n.distinct = false) (hoffset : n.offset = some offset) (ho : I.Counts offset o)
    (hl : ∀ e, n.limit = some e → ∃ l, I.Counts e l) (h : Numbered t n n' added rowNumber)
    (hp : Bounded t n n' p rowNumber) : (p.scopes I outer).map Scope.only =
      ((n.scopes I outer).filter fun s => decide (o < I.position (numberingKeys n.orderBy) s) && n.limit.all fun e =>
        decide (I.position (numberingKeys n.orderBy) s ≤ o + I.bound outer e)).map (n'.outputRow I) := by
  rw [scopes_over hp.tables, h.rows_eq hd, List.filter_map, hp.predicate, hoffset]
  congr 1
  exact List.filter_congr fun s _ => Expr.holds_pagingBounds hI ho hl (h.eval_rowNumber hI hn hslots s)

/-- Under the lifted keys these are the rows of the page, in order; without keys, in some order. -/
theorem rows_bounded (hI : I.Numbering) (hn : n.Explicit) (hslots : SlotsNamed n.projection)
    (hd : n.distinct = false) (hoffset : n.offset = some offset) (ho : I.Counts offset o)
    (hl : ∀ e, n.limit = some e → ∃ l, I.Counts e l) (h : Numbered t n n' added rowNumber)
    (hp : Bounded t n n' p rowNumber) (hreads : n.Reads I t p.projection) {keys : List OrderKey}
    {cols : List (Nat × Direction)} (hk : List.Forall₂ (n.SortsByColumn I t) keys cols)
    (hcmp : ∀ a ∈ n.scopes I outer, ∀ b ∈ n.scopes I outer,
      I.compareKeys n.orderBy a b = I.compareColumns cols (n.outputRow I a) (n.outputRow I b)) :
    (p.orderBy = keys → p.rows I outer = (n.rows I outer).map (List.take p.projection.length)) ∧
      (p.orderBy = [] → (p.rows I outer).Perm ((n.rows I outer).map (List.take p.projection.length))) := by
  have := hI.compare
  have htrans : Std.TransCmp (I.compareKeys n.orderBy) := transCmp_compareBy ..
  have hprefix : n.columnNames I <+: n'.columnNames I := h.columnNames_prefix hn
  have haddr : n'.Addressable I outer t := h.addressable hn hslots
  generalize hS : sortBy (I.compareKeys n.orderBy) (n.scopes I outer) = S
  have hk' : List.Forall₂ (n'.SortsByColumn I t) keys cols := hk.imp fun _ _ hcol => hcol.widen hprefix
  have hwidth : ∀ s, (n'.outputRow I s).take (n.columnNames I).length = n.outputRow I s := fun s => by
    rw [h.outputRow_eq hn, List.take_left']
    rw [hn.outputRow_eq, hn.columnNames_eq, List.length_map, List.length_map]
  -- Both sides in terms of the rows of the page, with the row number among their columns.
  have hpage : (n.rows I outer).map (List.take p.projection.length) =
      ((n.page I outer S).map (n'.outputRow I)).map (List.take p.projection.length) := by
    rw [Query.rows_eq, paged_of_not_distinct I outer hd, ← map_page, hS, List.map_map, List.map_map]
    refine List.map_congr_left fun s _ => ?_
    rw [Function.comp_apply, Function.comp_apply, ← hwidth s, List.take_take, min_eq_left hreads.length_le]
  have hrows : p.rows I outer =
      ((sortBy (I.compareKeys p.orderBy) (p.scopes I outer)).map Scope.only).map (List.take p.projection.length) := by
    rw [Query.rows_eq, paged_of_unpaged I outer hp.limit hp.offset, if_neg (by simp [hp.distinct]), List.map_map]
    exact List.map_congr_left fun s hs =>
      outputRow_of_reads hI.toLawful hp.explicit hp.tables haddr (hreads.widen hprefix) ((sortBy_perm _ _).mem_iff.1 hs)
  have hsorted : (sortBy (I.compareKeys keys) (p.scopes I outer)).map Scope.only =
      (n.page I outer S).map (n'.outputRow I) := by
    -- Sorting by the lifted keys puts the rows that are kept in the order that they are numbered in.
    rw [sorted_over hI.toLawful hp.tables haddr hk', scopes_bounded hI hn hslots hd hoffset ho hl h hp, ← hS,
      ← filter_position_sortBy hI hoffset ho hl, filter_sortBy]
    refine (map_sortBy fun a ha b hb => ?_).symm
    rw [hcmp a (List.mem_filter.1 ha).1 b (List.mem_filter.1 hb).1, ← hwidth a, ← hwidth b, compareColumns_take hk]
  refine ⟨fun horder => ?_, fun horder => ?_⟩
  · rw [hrows, horder, hsorted, hpage]
  · rw [hrows, horder, sortBy_compareKeys_nil, hpage, ← hsorted]
    exact (((sortBy_perm _ _).symm.map _).map _)

end

/-! ## The pass -/

/-- Below a query whose paging is replaced there is one that stands for it, with its rows numbered. -/
theorem Sunk.exists_numbered [DecidableEq V] (hI : I.Lawful) {t column : String} {q p c : Query}
    {copies added bounds : List Expr} {s : Session} {d : Draft} (hq : q.Explicit) (ho : q.offset.isSome = true)
    (hcovered : q.distinct = true → added = [])
    (h : Sunk t q p c copies added) (hd : Edit.numberRows column ⟨c, s⟩ = .ok bounds d) :
    ∃ n slots rowNumber, Stands I outer t q n (references t copies) p.orderBy ∧
      Numbered t n d.query slots rowNumber ∧ bounds = rowNumber.pagingBounds n.offset n.limit := by
  have hname : c.name = some t := h.passes.name
  have hdist : c.distinct = q.distinct := by rw [h.child]
  cases hcd : q.distinct with
  | false =>
    obtain ⟨t', slots, rowNumber, hn, -, hbounds⟩ := Edit.numberRows_ok (hdist.trans hcd) hd
    obtain rfl : t' = t := Option.some_inj.1 (hn.name.symm.trans hname)
    exact ⟨c, slots, rowNumber, h.stands hI hq hcd ho, hn, hbounds⟩
  | true =>
    obtain rfl := hcovered hcd
    obtain ⟨d₁, hsink, hd⟩ := Edit.numberRows_distinct (hdist.trans hcd) hd
    obtain ⟨u, m, e, copies', added', hsunk, hquery⟩ := Edit.sinkDistinct_ok (h.explicit hq) hsink
    have hstands : Stands I outer t q d₁.query (references t copies) p.orderBy :=
      h.stands_distinct hI hq ho hsunk hquery
    obtain ⟨t', slots, rowNumber, hn, -, hbounds⟩ := Edit.numberRows_ok hstands.distinct (hd hstands.distinct)
    have hname' : d₁.query.name = c.name := by rw [hquery, hsunk.parent]
    obtain rfl : t' = t := Option.some_inj.1 (hn.name.symm.trans (hname'.trans hname))
    exact ⟨d₁.query, slots, rowNumber, hstands, hn, hbounds⟩

end Query

variable [DecidableEq V]

/-- Replacing the paging of one query keeps its rows, and their order too unless the query is a table itself. -/
theorem Edit.replacePaging_rows (hI : I.Numbering) {column : String} {q : Query} {s : Session} {d : Draft}
    {offset : Expr} {o : Nat} (hq : q.Explicit) (hnamed : q.name.isSome = true → SlotsNamed q.projection)
    (hoffset : q.offset = some offset) (ho : I.Counts offset o) (hl : ∀ e, q.limit = some e → ∃ l, I.Counts e l)
    (hcovered : q.distinct = true → q.Covered) (h : Edit.replacePaging column ⟨q, s⟩ = .ok () d) :
    if q.name.isNone then d.query.rows I outer = q.rows I outer
    else (d.query.rows I outer).Perm (q.rows I outer) ∧ d.query.columnNames I = q.columnNames I := by
  obtain ⟨t, p, c, copies, added, bounds, s', d', hsunk, hnumber, hd⟩ := Edit.replacePaging_ok hq h
  obtain ⟨n, slots, rowNumber, hstands, hn, hbounds⟩ : ∃ n slots rowNumber,
      Query.Stands I outer t q n (Query.references t copies) p.orderBy ∧
        Query.Numbered t n d'.query slots rowNumber ∧ bounds = rowNumber.pagingBounds n.offset n.limit :=
    hsunk.exists_numbered hI.toLawful hq (by rw [hoffset]; rfl)
      (fun hdist => hsunk.added_eq_nil.2 (hcovered hdist)) hnumber
  have hproj : d.query.projection = Query.references t copies := by rw [hd]
  have hbounded : Query.Bounded t n d'.query d.query rowNumber := by
    refine ⟨⟨by rw [hd], ?_, hproj ▸ Query.references_noStar⟩, by rw [hd], by rw [hd, hbounds], ?_, ?_, ?_⟩
    · rw [hproj, Query.references, Ne, List.map_eq_nil_iff]
      exact List.ne_nil_of_length_pos (hsunk.copies_length ▸ List.length_pos_of_ne_nil hq.projects)
    all_goals rw [hd, hsunk.parent]
  -- The bounds keep the rows of the page, in the order in which they are numbered.
  obtain ⟨cols, hk, hcmp⟩ := hstands.sorted
  obtain ⟨hsorted, hperm⟩ := Query.rows_bounded hI hstands.explicit hstands.named hstands.distinct
    (hstands.offset.trans hoffset) ho (hstands.limit ▸ hl) hn hbounded (hproj ▸ hstands.reads) hk hcmp
  rw [hproj, hstands.rows] at hsorted hperm
  split
  · rename_i hname
    exact hsorted (by rw [hd, if_neg (by simpa using hname)])
  · rename_i hname
    have hsome : q.name.isSome = true := by simpa [Option.isSome_iff_ne_none] using hname
    refine ⟨hperm (by rw [hd, if_pos hsome]), ?_⟩
    rw [hbounded.explicit.columnNames_eq, hproj, Query.outputName_references (hsunk.copies_named hq), hq.columnNames_eq,
      hsunk.copies.unchanged (hnamed hsome)]

/-- What is left of a pass that succeeds and finds nothing to do below the root. -/
theorem Dialect.replacePaging_ok {dialect : Dialect} (hwithout : dialect.hasOffset = false)
    (hwindows : dialect.hasWindows = true) {q : Query} (hbelow : ∀ x ∈ q.subqueries, x.needsNumbering = false)
    {named n : Nat} {s : Session} (h : (dialect.replacePaging named q s).result = .ok n) :
    (q.needsNumbering = false ∧ (dialect.replacePaging named q s).query = q) ∨
      ∃ column d, Edit.replacePaging column ⟨q, s⟩ = .ok () d ∧ (dialect.replacePaging named q s).query = d.query := by
  have hpass : q.mapQueriesM PagingPass.step = PagingPass.step q :=
    Query.mapQueriesM_of_pure fun x hx => PagingPass.step_of_not_needed (hbelow x hx)
  unfold Dialect.replacePaging at h ⊢
  rw [hwithout, hwindows, if_neg (by decide), hpass] at h ⊢
  cases hneeds : q.needsNumbering with
  | false =>
    rw [PagingPass.step_of_not_needed hneeds]
    exact .inl ⟨rfl, rfl⟩
  | true =>
    rcases hd : Edit.replacePaging (PagingPass.columnName { session := s, named }) ⟨q, s⟩ with ⟨⟨⟩, d⟩ | ⟨e, d⟩
    · rw [PagingPass.step_of_ok rfl hneeds hd]
      exact .inr ⟨_, d, hd, rfl⟩
    · rw [PagingPass.step_of_error rfl hneeds hd] at h
      cases h

/-- Replacing paging by bounds on row numbers keeps the rows of a composed query and, unless it is a table
itself, their order. A query that is a table keeps the names of its columns. -/
theorem rows_replacePaging (hI : I.Numbering) {dialect : Dialect} (hwithout : dialect.hasOffset = false)
    (hwindows : dialect.hasWindows = true) {q : Query} (hc : q.Composed) (hq : q.Explicit) (hm : q.members = [])
    {offset : Expr} {o : Nat} (hoffset : q.offset = some offset) (ho : I.Counts offset o)
    (hl : ∀ e, q.limit = some e → ∃ l, I.Counts e l)
    (hk : q.distinct = true → ∀ k ∈ q.orderBy, ∃ slot ∈ q.projection, slot.equiv k.expr = true)
    (hbelow : ∀ x ∈ q.subqueries, x.needsNumbering = false) {named n : Nat} {s : Session}
    (h : (dialect.replacePaging named q s).result = .ok n) :
    if q.name.isNone then (dialect.replacePaging named q s).query.rows I outer = q.rows I outer
    else ((dialect.replacePaging named q s).query.rows I outer).Perm (q.rows I outer) ∧
      (dialect.replacePaging named q s).query.columnNames I = q.columnNames I := by
  rcases Dialect.replacePaging_ok hwithout hwindows hbelow h with ⟨-, heq⟩ | ⟨column, d, hd, heq⟩
  · rw [heq]
    split
    · rfl
    · exact ⟨.refl _, rfl⟩
  · rw [heq]
    -- Of all that is composed it only matters that slots which can be addressed have names that differ.
    have hnamed : q.name.isSome = true → SlotsNamed q.projection := (hc.sound q .root).slots
    refine Edit.replacePaging_rows hI hq hnamed hoffset ho hl (fun hdist => ?_) hd
    refine ⟨fun k hk' => ?_, by simp [hm]⟩
    obtain ⟨slot, hs, he⟩ := hk hdist k hk'
    rw [Query.covers, Query.slotOf_isSome hs he, Bool.true_or]

/-- A page of names, sorted by number; and a table of names without duplicates, all but the first, with
a limit that is out of range once the offset is added. -/
theorem rows_replacePaging_of_names :
    let names : Query := { tables := [.base "People" none "p" none], projection := [.column "p" none "Name" .text] }
    let q := { names with
      orderBy := [⟨.column "p" none "Id" .int32, .desc⟩]
      offset := some (.int 1)
      limit := some (.int 2) }
    let r := { names with
      name := some "v"
      orderBy := [⟨.column "p" none "Name" .text, .desc⟩]
      distinct := true
      offset := some (.int 1)
      limit := some (.int Int64.maxValue) }
    ((Dialect.withoutOffset.replacePaging 0 q {}).result = .ok 1 ∧
      (Dialect.withoutOffset.replacePaging 0 q {}).query.rows .people [] = q.rows .people []) ∧
    ((Dialect.withoutOffset.replacePaging 0 r {}).result = .ok 1 ∧
      ((Dialect.withoutOffset.replacePaging 0 r {}).query.rows .people []).Perm (r.rows .people []) ∧
      (Dialect.withoutOffset.replacePaging 0 r {}).query.columnNames .people = r.columnNames .people) := by
  intro names q r
  have hnames (name : Option String) :=
    (Query.Composed.fresh name).apply (.appendTable (.base "People" none "p" none))
      |>.apply (.project (.column "p" none "Name" .text) true)
  have hqc : q.Composed := (hnames none).apply (.orderAlso ⟨.column "p" none "Id" .int32, .desc⟩)
    |>.apply (.startAfter (some (.int 1)))
    |>.apply (.limitTo (some (.int 2)))
  have hrc : r.Composed := (hnames (some "v")).apply (.orderAlso ⟨.column "p" none "Name" .text, .desc⟩)
    |>.apply (.distinctRows true)
    |>.apply (.startAfter (some (.int 1)))
    |>.apply (.limitTo (some (.int Int64.maxValue)))
  have hq : q.Explicit := ⟨rfl, List.cons_ne_nil _ _, by simp [q, names, Expr.isStar]⟩
  have hr : r.Explicit := ⟨rfl, List.cons_ne_nil _ _, by simp [r, names, Expr.isStar]⟩
  have hrun : (Dialect.withoutOffset.replacePaging 0 r {}).result = .ok 1 := by decide +kernel
  -- The limit of the second overflows once the offset is added, so that all rows are within bounds.
  refine ⟨⟨rfl, ?_⟩, hrun, ?_⟩
  · exact rows_replacePaging Interpretation.people_numbering rfl rfl hqc hq rfl rfl (.constant (by decide))
      (fun e he => ⟨2, by cases he; exact .constant (by decide)⟩) (by simp [q, names]) (by decide) rfl
  · exact rows_replacePaging Interpretation.people_numbering rfl rfl hrc hr rfl rfl (.constant (by decide))
      (fun e he => ⟨_, by cases he; exact .constant (by decide)⟩) (fun _ => by decide) (by decide) hrun

end QueryTree
