/-
Queries over one nested query. The nested query is addressed by the names of its columns, so where
these differ a reference reads one column, and sorting by references is sorting rows by columns.
-/
import QueryTree.Proofs.Rows.Meaning
import QueryTree.Proofs.Names

namespace QueryTree

variable {V : Type}

/-! ## Scopes -/

theorem scopesOf_map_row (outer rows : List (List (Part V))) : (scopesOf outer rows).map Scope.row = rows := by
  simp [scopesOf, Function.comp_def]

theorem mem_scopesOf {outer rows : List (List (Part V))} {s : Scope V} (h : s ∈ scopesOf outer rows) :
    s.row ∈ rows ∧ s.outer = outer ∧ s.peers = rows := by
  obtain ⟨⟨row, place⟩, hm, rfl⟩ := List.mem_map.1 h
  exact ⟨List.fst_mem_of_mem_zipIdx hm, rfl, rfl⟩

namespace Query

variable (I : Interpretation V) (outer : List (List (Part V)))

/-! ## Clauses -/

section

variable [DecidableEq V]

/-- The rows that pass WHERE, with all that expressions see from them. -/
def scopes (q : Query) : List (Scope V) := scopesOf outer (q.kept I outer (fromRows I outer q.tables [[]]))

theorem rows_eq (q : Query) : q.rows I outer =
    q.paged I outer ((sortBy (I.compareKeys q.orderBy) (q.scopes I outer)).map (q.outputRow I)) := by
  cases q; rfl

omit [DecidableEq V] in
theorem page_sublist {α : Type} (q : Query) (rows : List α) : (q.page I outer rows).Sublist rows := by
  unfold page
  cases q.limit <;> cases q.offset <;> simp only [Option.elim_none, Option.elim_some]
  · exact .refl _
  · exact List.drop_sublist _ _
  · exact List.take_sublist _ _
  · exact (List.take_sublist _ _).trans (List.drop_sublist _ _)

theorem paged_sublist (q : Query) (rows : List (List V)) : (q.paged I outer rows).Sublist rows := by
  refine (page_sublist I outer q _).trans ?_
  split
  · exact eraseDups_sublist rows
  · exact .refl _

omit [DecidableEq V] in
theorem map_page {α β : Type} (q : Query) (f : α → β) (rows : List α) :
    (q.page I outer rows).map f = q.page I outer (rows.map f) := by
  unfold page
  cases q.offset <;> cases q.limit <;> simp [List.map_take, List.map_drop]

theorem paged_of_not_distinct {q : Query} (hq : q.distinct = false) (rows : List (List V)) :
    q.paged I outer rows = q.page I outer rows := by
  rw [paged, hq, if_neg Bool.false_ne_true]

theorem map_paged {q : Query} (hq : q.distinct = false) (f : List V → List V) (rows : List (List V)) :
    (q.paged I outer rows).map f = q.paged I outer (rows.map f) := by
  rw [paged_of_not_distinct I outer hq, paged_of_not_distinct I outer hq, map_page]

theorem paged_of_unpaged {q : Query} (hl : q.limit = none) (ho : q.offset = none) (rows : List (List V)) :
    q.paged I outer rows = if q.distinct then rows.eraseDups else rows := by
  unfold paged page; rw [hl, ho]; rfl

variable {I outer}

theorem exists_outputRow {q : Query} {row : List V} (h : row ∈ q.rows I outer) :
    ∃ s ∈ q.scopes I outer, q.outputRow I s = row := by
  rw [rows_eq] at h
  obtain ⟨s, hs, hrow⟩ := List.mem_map.1 ((paged_sublist I outer q _).subset h)
  exact ⟨s, (sortBy_perm _ _).mem_iff.1 hs, hrow⟩

end

/-! ## Output of explicit projections -/

theorem columnNames_eq (q : Query) : q.columnNames I =
    q.columnsOf (q.tables.map fun t => (t.name, t.columnNames I)) Expr.outputName := by
  cases q; rw [columnNames, tableColumnNames_eq_map]

/-- The projection alone is the output, one column for each slot. -/
structure Explicit (q : Query) : Prop where
  notStarred : q.starred = false
  projects : q.projection ≠ []
  noStar : ∀ e ∈ q.projection, e.isStar = false

theorem slotColumns_of_not_star {α : Type} {parts : List (Option String × List α)} {column : Expr → α} {e : Expr}
    (h : e.isStar = false) : slotColumns parts column e = [column e] := by
  cases e <;> first | rfl | cases h

theorem Explicit.columnsOf_eq {q : Query} (h : q.Explicit) {α : Type} (parts : List (Option String × List α))
    (column : Expr → α) : q.columnsOf parts column = q.projection.map column := by
  obtain ⟨hs, hp, hn⟩ := h
  rw [columnsOf, hs, if_neg (by decide), if_neg (by simpa using hp), List.nil_append]
  revert hn
  generalize q.projection = es
  intro hn
  induction es with
  | nil => rfl
  | cons e es ih =>
    rw [List.flatMap_cons, slotColumns_of_not_star (hn e (List.mem_cons_self ..)),
      ih fun x hx => hn x (List.mem_cons_of_mem _ hx)]
    rfl

theorem Explicit.columnNames_eq {q : Query} (h : q.Explicit) :
    q.columnNames I = q.projection.map Expr.outputName := by
  rw [Query.columnNames_eq, h.columnsOf_eq]

theorem Explicit.outputRow_eq {q : Query} (h : q.Explicit) (s : Scope V) :
    q.outputRow I s = q.projection.map (I.eval · s) := h.columnsOf_eq ..

end Query

theorem getElem?_of_prefix {α : Type} {xs ys : List α} (h : xs <+: ys) {i : Nat} {a : α} (hi : xs[i]? = some a) :
    ys[i]? = some a := by
  obtain ⟨rest, rfl⟩ := h
  rw [List.getElem?_append_left (List.getElem?_eq_some_iff.1 hi).1, hi]

/-! ## Columns that a name finds -/

/-- No two columns have names that clash. -/
def NamesDiffer (names : List (Option String)) : Prop := ((names.filterMap id).map Text.lowercase).Nodup

theorem filter_clash_eq_nil {n : String} : ∀ {names : List (Option String)} {values : List V},
    Text.lowercase n ∉ (names.filterMap id).map Text.lowercase →
    ((names.zip values).filter fun c => c.1.any (Name.clash · n)) = []
  | [], _, _ => rfl
  | _ :: _, [], _ => rfl
  | name :: names, v :: values, h => by
    have hrest : Text.lowercase n ∉ (names.filterMap id).map Text.lowercase := fun hn => h <| by
      cases name <;> simp_all
    have hhead : name.any (Name.clash · n) = false := by
      cases name with
      | none => rfl
      | some m =>
        simp only [Option.any_some]
        rw [← Bool.not_eq_true, Name.clash_iff]
        intro heq; apply h; simp [heq]
    rw [List.zip_cons_cons, List.filter_cons_of_neg (by simpa using hhead), filter_clash_eq_nil hrest]

/-- Where names differ, a name finds the one column that has it. -/
theorem filter_clash_eq_singleton {n : String} {v : V} : ∀ {names : List (Option String)} {values : List V} {i : Nat},
    NamesDiffer names → names[i]? = some (some n) → values[i]? = some v →
    ((names.zip values).filter fun c => c.1.any (Name.clash · n)) = [(some n, v)]
  | name :: names, w :: values, 0, hd, hn, hv => by
    simp only [List.getElem?_cons_zero, Option.some.injEq] at hn hv
    subst hn; subst hv
    rw [List.zip_cons_cons, List.filter_cons_of_pos (by simp [Name.clash_iff]),
      filter_clash_eq_nil (List.nodup_cons.1 hd).1]
  | name :: names, w :: values, i + 1, hd, hn, hv => by
    simp only [List.getElem?_cons_succ] at hn hv
    have hmem : Text.lowercase n ∈ (names.filterMap id).map Text.lowercase :=
      List.mem_map_of_mem (List.mem_filterMap.2 ⟨some n, List.mem_of_getElem? hn, rfl⟩)
    have hrest : NamesDiffer names := by
      cases name with
      | none => exact hd
      | some m => exact (List.nodup_cons.1 hd).2
    -- The name at the head is not this one, which is found further on.
    have hhead : name.any (Name.clash · n) = false := by
      cases name with
      | none => rfl
      | some m =>
        simp only [Option.any_some]
        rw [← Bool.not_eq_true, Name.clash_iff]
        intro heq; exact (List.nodup_cons.1 hd).1 (heq ▸ hmem)
    rw [List.zip_cons_cons, List.filter_cons_of_neg (by simpa using hhead),
      filter_clash_eq_singleton hrest hn hv]
  | [], _, _, _, hn, _ => by simp at hn
  | _ :: _, [], _, _, _, hv => by simp at hv

theorem SlotsNamed.namesDiffer {slots : List Expr} (h : SlotsNamed slots) :
    NamesDiffer (slots.map Expr.outputName) := by
  unfold NamesDiffer
  rw [List.filterMap_map]
  exact h.distinct

/-! ## A query over one nested query -/

/-- The values in a row of a FROM list of one table. -/
def Scope.only (s : Scope V) : List V := s.row.flatMap Part.values

/-- Compares rows by the values of some of their columns. -/
def Interpretation.compareColumns (I : Interpretation V) (cols : List (Nat × Direction)) :
    List V → List V → Ordering :=
  compareBy I.compare (cols.map fun c => (fun row => row.getD c.1 I.null, c.2))

namespace Query

variable (I : Interpretation V) (outer : List (List (Part V)))

/-- A row of a query as the row of a FROM list that has no other table. -/
def asRow (q : Query) (values : List V) : List (Part V) := [⟨q.name, q.columnNames I, values⟩]

/-- The columns of a query can be addressed from outside: it has the name `t`, and each row has one
value for each of its column names, which differ. -/
structure Addressable [DecidableEq V] (t : String) (q : Query) : Prop where
  name : q.name = some t
  differ : NamesDiffer (q.columnNames I)
  width : ∀ row ∈ q.rows I outer, row.length = (q.columnNames I).length

/-- The key sorts by the output column of the nested query `t` at a position, in the direction beside it. -/
def SortsByColumn (t : String) (q : Query) (key : OrderKey) (col : Nat × Direction) : Prop :=
  key.direction = col.2 ∧ ∃ name type, key.expr = .output t name type ∧
    (q.columnNames I)[col.1]? = some (some name)

variable {I outer}

theorem SortsByColumn.widen {t : String} {c c' : Query} (h : c.columnNames I <+: c'.columnNames I) {key : OrderKey}
    {col : Nat × Direction} (hcol : c.SortsByColumn I t key col) : c'.SortsByColumn I t key col := by
  obtain ⟨hd, name, type, he, hi⟩ := hcol
  exact ⟨hd, name, type, he, getElem?_of_prefix h hi⟩

section

variable [DecidableEq V]

theorem scopes_over {p c : Query} (hp : p.tables = [.nested c]) :
    (p.scopes I outer).map Scope.only = ((c.rows I outer).filter fun values =>
      p.predicate.all fun e => I.holds (I.eval e { row := c.asRow I values, outer })) := by
  have hfrom : fromRows I outer p.tables [[]] = (c.rows I outer).map (c.asRow I) := by
    rw [hp]; simp [fromRows, Table.parts, asRow]
  have honly : (p.scopes I outer).map Scope.only =
      ((p.scopes I outer).map Scope.row).map fun row => row.flatMap Part.values := by
    rw [List.map_map]; rfl
  rw [honly, scopes, scopesOf_map_row, kept, hfrom, List.filter_map, List.map_map]
  rw [List.map_congr_left (g := id) fun values _ => by simp [asRow], List.map_id]
  rfl

theorem row_eq_asRow {p c : Query} (hp : p.tables = [.nested c]) {s : Scope V} (hs : s ∈ p.scopes I outer) :
    s.row = c.asRow I s.only ∧ s.only ∈ c.rows I outer := by
  have hrow := (mem_scopesOf hs).1
  rw [kept, hp] at hrow
  have hmem := (List.mem_filter.1 hrow).1
  simp only [fromRows, Table.parts, List.flatMap_cons, List.flatMap_nil, List.append_nil, List.nil_append,
    List.map_map, List.mem_map] at hmem
  obtain ⟨values, hv, heq⟩ := hmem
  have honly : s.only = values := by rw [Scope.only, ← heq]; simp
  exact ⟨by rw [honly, ← heq]; rfl, honly ▸ hv⟩

omit [DecidableEq V] in
theorem eval_output (hI : I.Lawful) {c : Query} {t name : String} {i : Nat} {v : V} {values : List V}
    {s : Scope V} (hname : c.name = some t) (hd : NamesDiffer (c.columnNames I)) (hs : s.row = c.asRow I values)
    (hn : (c.columnNames I)[i]? = some (some name)) (hv : values[i]? = some v) (type : DataType) :
    I.eval (.output t name type) s = v := by
  refine hI.output type ?_
  rw [Scope.answers, hs, asRow, List.filter_cons_of_pos (by simp [hname]), List.filter_nil, List.flatMap_cons,
    List.flatMap_nil, List.append_nil, Part.answers, filter_clash_eq_singleton hd hn hv]
  rfl

/-- Lifted keys compare the rows of a FROM list by columns of the nested query. -/
theorem compareKeys_over (hI : I.Lawful) {p c : Query} {t : String} {keys : List OrderKey}
    {cols : List (Nat × Direction)} (hp : p.tables = [.nested c]) (hc : c.Addressable I outer t)
    (hk : List.Forall₂ (c.SortsByColumn I t) keys cols) {a b : Scope V} (ha : a ∈ p.scopes I outer)
    (hb : b ∈ p.scopes I outer) : I.compareKeys keys a b = I.compareColumns cols a.only b.only := by
  refine compareBy_congr ?_
  rw [List.forall₂_map_left_iff, List.forall₂_map_right_iff]
  refine hk.imp fun key col ⟨hd, name, type, he, hn⟩ => ?_
  have hread : ∀ s ∈ p.scopes I outer, I.eval key.expr s = s.only.getD col.1 I.null := by
    intro s hs
    obtain ⟨hrow, hmem⟩ := row_eq_asRow hp hs
    have hlt : col.1 < s.only.length := by
      rw [hc.width _ hmem]; exact (List.getElem?_eq_some_iff.1 hn).1
    rw [he, List.getD_eq_getElem?_getD, List.getElem?_eq_getElem hlt, Option.getD_some]
    exact eval_output hI hc.name hc.differ hrow hn (List.getElem?_eq_getElem hlt) type
  exact ⟨hd, hread a ha, hread b hb⟩

/-- Sorting a query over one nested query by lifted keys sorts the rows of the nested query by columns. -/
theorem sorted_over (hI : I.Lawful) {p c : Query} {t : String} {keys : List OrderKey}
    {cols : List (Nat × Direction)} (hp : p.tables = [.nested c]) (hc : c.Addressable I outer t)
    (hk : List.Forall₂ (c.SortsByColumn I t) keys cols) :
    (sortBy (I.compareKeys keys) (p.scopes I outer)).map Scope.only =
      sortBy (I.compareColumns cols) ((p.scopes I outer).map Scope.only) :=
  map_sortBy fun _ ha _ hb => compareKeys_over hI hp hc hk ha hb

theorem Explicit.addressable {t : String} {q : Query} (h : q.Explicit) (hname : q.name = some t)
    (hslots : SlotsNamed q.projection) : q.Addressable I outer t where
  name := hname
  differ := by rw [h.columnNames_eq]; exact hslots.namesDiffer
  width row hrow := by
    obtain ⟨s, -, rfl⟩ := exists_outputRow hrow
    rw [h.outputRow_eq, h.columnNames_eq, List.length_map, List.length_map]

theorem Explicit.map_take_rows {q : Query} (h : q.Explicit) :
    (q.rows I outer).map (List.take q.projection.length) = q.rows I outer := by
  refine (List.map_congr_left fun row hrow => ?_).trans (List.map_id _)
  obtain ⟨s, -, rfl⟩ := exists_outputRow hrow
  exact List.take_of_length_le (by rw [h.outputRow_eq, List.length_map])

/-! ## A wildcard over a nested query -/

/-- `p` outputs what its only table does, the nested query `c` of the name `t`. -/
structure Passes (t : String) (p c : Query) : Prop where
  tables : p.tables = [.nested c]
  name : c.name = some t
  starred : p.starred = true
  choice : p.wildcardChoice = some t
  projection : p.projection = []
  predicate : p.predicate = none

namespace Passes

variable {t : String} {p c : Query}

omit [DecidableEq V] in
theorem columnsOf_eq (h : Passes t p c) {α : Type} (values : List α) (column : Expr → α) :
    p.columnsOf [(c.name, values)] column = values := by
  rw [columnsOf, if_pos h.starred, h.projection, List.flatMap_nil, List.append_nil, wildcardTable, h.choice,
    h.name]
  simp [wildcardOf]

omit [DecidableEq V] in
theorem columnNames_eq (h : Passes t p c) : p.columnNames I = c.columnNames I := by
  rw [Query.columnNames_eq, h.tables, List.map_cons, List.map_nil, Table.name, h.columnsOf_eq, Table.columnNames]

theorem outputRow_eq (h : Passes t p c) {s : Scope V} (hs : s ∈ p.scopes I outer) : p.outputRow I s = s.only := by
  rw [outputRow, (row_eq_asRow h.tables hs).1, asRow, List.map_cons, List.map_nil, h.columnsOf_eq]

theorem mem_rows (h : Passes t p c) {row : List V} (hr : row ∈ p.rows I outer) : row ∈ c.rows I outer := by
  obtain ⟨s, hs, rfl⟩ := exists_outputRow hr
  rw [h.outputRow_eq hs]
  exact (row_eq_asRow h.tables hs).2

theorem scopes_only (h : Passes t p c) : (p.scopes I outer).map Scope.only = c.rows I outer := by
  rw [scopes_over h.tables, h.predicate]
  exact List.filter_eq_self.2 fun _ _ => rfl

theorem rows_eq (hI : I.Lawful) {cols : List (Nat × Direction)} (h : Passes t p c)
    (hc : c.Addressable I outer t) (hk : List.Forall₂ (c.SortsByColumn I t) p.orderBy cols) :
    p.rows I outer = p.paged I outer (sortBy (I.compareColumns cols) (c.rows I outer)) := by
  rw [Query.rows_eq, ← h.scopes_only, ← sorted_over hI h.tables hc hk]
  congr 1
  exact List.map_congr_left fun s hs => h.outputRow_eq ((sortBy_perm _ _).mem_iff.1 hs)

end Passes

end

end Query
end QueryTree
