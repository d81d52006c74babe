/-
DISTINCT below a binding. A nested query on the way to a column shows it in a new slot unless its output has
it already, whether the query is DISTINCT or not. So exactly those DISTINCT queries range over the slots that
they did whose output has had the column.
-/
import QueryTree.Proofs.Binding.Outcome
import QueryTree.Proofs.Binding.Repeated
import QueryTree.Proofs.Composed
import QueryTree.Proofs.Rows.Nested

namespace QueryTree

/-! ## Places in a tree -/

/-- The nested query at a place, given by positions in FROM lists from the outside in. -/
def Query.at? : List Nat → Query → Option Query
  | [], q => some q
  | i :: path, q => (q.tables[i]?.bind Table.query?).bind (at? path)

/-- The same from a table on, which may hold the query itself. -/
def Table.at? (path : List Nat) (t : Table) : Option Query := t.query?.bind (Query.at? path)

theorem Query.at?_cons (i : Nat) (path : List Nat) (q : Query) :
    q.at? (i :: path) = q.tables[i]?.bind (Table.at? path) := by
  rw [at?]
  cases q.tables[i]? <;> rfl

/-- Where `old` has the queries on the way, `new` has what `R` makes of them, and all other queries are at the
same places in both. -/
structure ChangedAlong {ι : Type} (R : Query → Query → Prop) (way : List Query) (old new : ι → Option Query) :
    Prop where
  places : ∀ {i : ι} {x : Query}, old i = some x → ∃ y, new i = some y ∧ (y = x ∨ x ∈ way ∧ R x y)
  changed : ∀ x ∈ way, ∃ i y, old i = some x ∧ new i = some y ∧ R x y

theorem changedAlong_nil {ι : Type} (R : Query → Query → Prop) (old : ι → Option Query) :
    ChangedAlong R [] old old where
  places h := ⟨_, h, .inl rfl⟩
  changed := by simp

/-! ## Columns that an output has -/

namespace Query

/-- The output has the column, through the wildcard or in a slot. -/
def hasColumn (e : Expr) (q : Query) : Bool := q.starred && q.wildcardCovers e || (q.slotOf e).isSome

/-- What the column is in the query, its output has. -/
def ShowsAlready (settings : Settings) (column : String) (type : DataType) (source : Source) (q : Query) : Prop :=
  ∀ e r, resolveColumn settings column type source q = .ok e r → q.hasColumn e = true

variable {q r : Query} {e e' : Expr} {name : String}

/-- What stands for a column is remembered at most. -/
theorem standIn_keeps (threshold : Nat) (e : Expr) (q : Query) :
    (q.standIn threshold e).2 = { q with memo := (q.standIn threshold e).2.memo } := by
  cases q
  unfold standIn
  split <;> rfl

theorem standIn_tables (threshold : Nat) (e : Expr) (q : Query) : (q.standIn threshold e).2.tables = q.tables := by
  rw [standIn_keeps]

/-- A column gets a slot exactly if the output has not had it. -/
theorem expose_projection_iff (he : e.unnamed.isColumn = true) (h : q.expose name e = .ok e' r) :
    r.projection = q.projection ↔ q.hasColumn e = true := by
  rw [(expose_shown h).2, hasColumn]
  by_cases hcovered : (q.starred && q.wildcardCovers e) = true
  · rw [if_pos hcovered, hcovered, Bool.true_or]
    exact iff_of_true rfl rfl
  · obtain ⟨added, hgains, hnil, -⟩ := addSlot_spec e q
    rw [stripCasts_of_column he] at hnil
    rw [if_neg hcovered, Bool.eq_false_iff.2 hcovered, Bool.false_or, ← hnil, hgains.projection]
    exact List.append_right_eq_self

theorem expose_of_hasColumn (he : e.unnamed.isColumn = true) (h : q.expose name e = .ok e' r)
    (ho : q.hasColumn e = true) : r = q := by
  obtain ⟨added, rfl⟩ := expose_appends he h
  have hnil : added = [] := List.append_right_eq_self.1 ((expose_projection_iff he h).2 ho)
  rw [hnil]
  cases q
  rw [List.append_nil]

end Query

/-! ## Binding along the way -/

section Bind

variable {threshold : Nat} {column : String} {type : DataType} {source : Source}

namespace Query

variable {q r : Query} {e e' : Expr} {name : String}

theorem bindBelow_ok (h : q.bindBelow column type source threshold name = .ok e' r) :
    ∃ e p, q.bind threshold column type source = .ok e p ∧ p.expose name e = .ok e' r := by
  unfold bindBelow at h
  rcases hb : q.bind threshold column type source with ⟨e, p⟩ | ⟨err, p⟩
  · rw [hb] at h
    exact ⟨e, p, rfl, h⟩
  · rw [hb] at h
    cases h

/-- Its tables and its memo apart, a query stays as it is when a column is bound in it. -/
theorem bind_keeps (h : q.bind threshold column type source = .ok e r) :
    r = { q with tables := r.tables, memo := r.memo } := by
  cases afterBinding h with
  | intro => simp

theorem name_of_bind (h : q.bind threshold column type source = .ok e r) : r.name = q.name := by rw [bind_keeps h]

theorem column_of_bind (h : q.bind threshold column type source = .ok e r) : e.unnamed.isColumn = true :=
  (q.grows_bind threshold column type source).2 e r h

theorem wildcardTable_of_bind (h : q.bind threshold column type source = .ok e r) :
    r.wildcardTable = q.wildcardTable := by
  have hgrows := (q.grows_bind threshold column type source).1
  rw [h] at hgrows
  exact hgrows.extended.wildcardTable

theorem hasColumn_of_bind (h : q.bind threshold column type source = .ok e r) (e' : Expr) :
    r.hasColumn e' = q.hasColumn e' := by
  have hslots : r.projection = q.projection := by rw [bind_keeps h]
  have hstarred : r.starred = q.starred := by rw [bind_keeps h]
  unfold hasColumn wildcardCovers
  rw [hstarred, wildcardTable_of_bind h, slotOf_projection hslots]

/-- The nested query `x` of a name, `y` once the column has been bound in it and shown. -/
def ShownAs (threshold : Nat) (column : String) (type : DataType) (source : Source) (x y : Query) : Prop :=
  ∃ name e, x.bindBelow column type source threshold name = .ok e y

/-- It gains a slot exactly if the output has not had what the column is in it. -/
theorem ShownAs.projection_iff {x y : Query} (h : x.ShownAs threshold column type source y) :
    y.projection = x.projection ↔ ∀ e p, x.bind threshold column type source = .ok e p → x.hasColumn e = true := by
  obtain ⟨name, e', hbelow⟩ := h
  obtain ⟨e, p, hb, hexpose⟩ := bindBelow_ok hbelow
  have hslots : p.projection = x.projection := by rw [bind_keeps hb]
  rw [← hslots, expose_projection_iff (column_of_bind hb) hexpose, hasColumn_of_bind hb]
  constructor
  · intro ho e₂ p₂ hb₂
    rw [hb] at hb₂
    cases hb₂
    exact ho
  · exact fun h => h e p hb

end Query

mutual

theorem Table.bind_changedAlong : ∀ {t t' : Table} {e : Expr}, t.bind threshold column type source = .ok e t' →
    ChangedAlong (Query.ShownAs threshold column type source) (t.wayTo source) (t.at? ·) (t'.at? ·)
  | .base .., _, _, h => by
    rw [Table.bind] at h
    cases h
    exact changedAlong_nil ..
  | .join kind target condition, _, _, h => by
    rw [Table.bind] at h
    obtain ⟨target', ht, rfl⟩ := mapState_ok h
    have htarget : ChangedAlong (Query.ShownAs threshold column type source) (target.wayTo source)
      (target.at? ·) (target'.at? ·) := Table.bind_changedAlong ht
    rw [Table.wayTo]
    exact htarget
  | .nested q, _, _, h => by
    rcases hname : q.name with _ | name
    · rw [Table.bind] at h
      simp only [hname] at h
      cases h
    · rw [Table.bind_nested column type source threshold hname] at h
      obtain ⟨y, hbelow, rfl⟩ := mapState_ok h
      obtain ⟨e₁, p, hb, hexpose⟩ := Query.bindBelow_ok hbelow
      have hrest := Query.bind_changedAlong hb
      -- Showing the column changes nothing below the query.
      have hbelow_eq (i : Nat) (path : List Nat) : y.at? (i :: path) = p.at? (i :: path) := by
        obtain ⟨added, rfl⟩ := Query.expose_appends (Query.column_of_bind hb) hexpose
        rfl
      have hself : q.ShownAs threshold column type source y := ⟨name, _, hbelow⟩
      rw [Table.wayTo]
      constructor
      · rintro (_ | ⟨i, path⟩) x hx
        · cases hx
          exact ⟨y, rfl, .inr ⟨List.mem_cons_self .., hself⟩⟩
        · obtain ⟨z, hz, hsame⟩ := hrest.places (i := (i, path)) hx
          exact ⟨z, (hbelow_eq i path).trans hz, hsame.imp_right fun h => ⟨List.mem_cons_of_mem _ h.1, h.2⟩⟩
      · intro x hx
        rcases List.mem_cons.1 hx with rfl | hx
        · exact ⟨[], y, rfl, rfl, hself⟩
        · obtain ⟨⟨i, path⟩, z, hold, hnew, hshown⟩ := hrest.changed x hx
          exact ⟨i :: path, z, hold, (hbelow_eq i path).trans hnew, hshown⟩

theorem Query.bind_changedAlong : ∀ {q r : Query} {e : Expr}, q.bind threshold column type source = .ok e r →
    ChangedAlong (Query.ShownAs threshold column type source) (q.wayTo source)
      (fun place : Nat × List Nat => q.at? (place.1 :: place.2)) (fun place => r.at? (place.1 :: place.2))
  | ⟨tables, _, _, _, _, _, _, _, _, _, _, _⟩, _, _, h => by
    rw [Query.bind] at h
    rcases hb : bindFirst threshold column type source tables with ⟨bound, ts⟩ | ⟨err, ts⟩
    · simp only [hb] at h
      cases h
      simp only [Query.at?_cons, Query.standIn_tables, Query.wayTo]
      exact bindFirst_changedAlong hb
    · simp only [hb] at h
      cases h

theorem bindFirst_changedAlong : ∀ {ts ts' : List Table} {e : Expr},
    bindFirst threshold column type source ts = .ok e ts' →
    ChangedAlong (Query.ShownAs threshold column type source) (firstWayTo source ts)
      (fun place : Nat × List Nat => ts[place.1]?.bind (Table.at? place.2))
      (fun place => ts'[place.1]?.bind (Table.at? place.2))
  | [], _, _, h => by
    rw [bindFirst] at h
    cases h
  | t :: ts, _, _, h => by
    rw [bindFirst] at h
    rw [firstWayTo]
    by_cases ht : t.serves source = true
    · rw [if_pos ht] at h ⊢
      obtain ⟨t', hbind, rfl⟩ := mapState_ok h
      have hhead := Table.bind_changedAlong hbind
      constructor
      · rintro ⟨_ | i, path⟩ x hx
        · exact hhead.places (i := path) hx
        · exact ⟨x, hx, .inl rfl⟩
      · intro x hx
        obtain ⟨path, y, hold, hnew, hshown⟩ := hhead.changed x hx
        exact ⟨(0, path), y, hold, hnew, hshown⟩
    · rw [if_neg ht] at h ⊢
      obtain ⟨ts', hbind, rfl⟩ := mapState_ok h
      have htail := bindFirst_changedAlong hbind
      constructor
      · rintro ⟨_ | i, path⟩ x hx
        · exact ⟨x, hx, .inl rfl⟩
        · exact htail.places (i := (i, path)) hx
      · intro x hx
        obtain ⟨⟨i, path⟩, y, hold, hnew, hshown⟩ := htail.changed x hx
        exact ⟨(i + 1, path), y, hold, hnew, hshown⟩

end

/-! ## Rows that stay the same -/

variable {V : Type} [DecidableEq V] {I : Interpretation V}

/-- The table is named and contributes what it did. -/
structure Table.SameParts (I : Interpretation V) (t t' : Table) : Prop where
  name : t'.name = t.name
  columnNames : t'.columnNames I = t.columnNames I
  parts : ∀ outer left, t'.parts I outer left = t.parts I outer left

/-- The query outputs the columns and returns the rows that it did. -/
structure Query.SameRows (I : Interpretation V) (q r : Query) : Prop where
  columnNames : r.columnNames I = q.columnNames I
  rows : ∀ outer, r.rows I outer = q.rows I outer

/-- What the tables contribute is all that matters to a query whose memo changes. -/
theorem Query.same_of_bind {q r : Query} {e : Expr} (h : q.bind threshold column type source = .ok e r)
    (hnames : r.tables.map (fun t => (t.name, t.columnNames I)) = q.tables.map fun t => (t.name, t.columnNames I))
    (hfrom : ∀ outer rows, fromRows I outer r.tables rows = fromRows I outer q.tables rows) : q.SameRows I r := by
  have hkeeps := bind_keeps h
  have hstarred : r.starred = q.starred := by rw [hkeeps]
  have hslots : r.projection = q.projection := by rw [hkeeps]
  have houtput {α : Type} (parts : List (Option String × List α)) (column : Expr → α) :
      r.columnsOf parts column = q.columnsOf parts column := by
    rw [columnsOf, columnsOf, hstarred, wildcardTable_of_bind h, hslots]
  constructor
  · rw [columnNames_eq, columnNames_eq, hnames, houtput]
  · intro outer
    have hscopes : r.scopes I outer = q.scopes I outer := by
      have hpredicate : r.predicate = q.predicate := by rw [hkeeps]
      rw [scopes, scopes, kept, kept, hfrom, hpredicate]
    have hrow : r.outputRow I = q.outputRow I := funext fun s => houtput _ _
    have hkeys : r.orderBy = q.orderBy := by rw [hkeeps]
    have hpaged (rows : List (List V)) : r.paged I outer rows = q.paged I outer rows := by
      rw [hkeeps]
      rfl
    rw [rows_eq, rows_eq, hscopes, hrow, hkeys, hpaged]

mutual

theorem Table.bind_same : ∀ {t t' : Table} {e : Expr}, t.bind threshold column type source = .ok e t' →
    (∀ x ∈ t.wayTo source, ∀ e p, x.bind threshold column type source = .ok e p → x.hasColumn e = true) →
      t.SameParts I t'
  | .base .., _, _, h, _ => by
    rw [Table.bind] at h
    cases h
    exact ⟨rfl, rfl, fun _ _ => rfl⟩
  | .join kind target condition, _, _, h, hway => by
    rw [Table.bind] at h
    obtain ⟨target', ht, rfl⟩ := mapState_ok h
    rw [Table.wayTo] at hway
    have hsame : target.SameParts I target' := Table.bind_same (t := target) ht hway
    refine ⟨hsame.name, ?_, fun outer left => ?_⟩
    · rw [Table.columnNames, Table.columnNames, hsame.columnNames]
    · simp only [Table.parts, hsame.parts, hsame.name, hsame.columnNames]
  | .nested q, _, _, h, hway => by
    rcases hname : q.name with _ | name
    · rw [Table.bind] at h
      simp only [hname] at h
      cases h
    · rw [Table.bind_nested column type source threshold hname] at h
      obtain ⟨y, hbelow, rfl⟩ := mapState_ok h
      obtain ⟨e₁, p, hb, hexpose⟩ := Query.bindBelow_ok hbelow
      rw [Table.wayTo, List.forall_mem_cons] at hway
      -- The output has the column, so that nothing is added for it.
      have hp : p.hasColumn e₁ = true := (Query.hasColumn_of_bind hb e₁).trans (hway.1 e₁ p hb)
      obtain rfl : y = p := Query.expose_of_hasColumn (Query.column_of_bind hb) hexpose hp
      have hsame : q.SameRows I y := Query.bind_same hb hway.2
      refine ⟨Query.name_of_bind hb, ?_, fun outer left => ?_⟩
      · rw [Table.columnNames, Table.columnNames, hsame.columnNames]
      · rw [Table.parts, Table.parts, hsame.columnNames, hsame.rows, Query.name_of_bind hb]

theorem Query.bind_same : ∀ {q r : Query} {e : Expr}, q.bind threshold column type source = .ok e r →
    (∀ x ∈ q.wayTo source, ∀ e p, x.bind threshold column type source = .ok e p → x.hasColumn e = true) → q.SameRows I r
  | ⟨tables, _, _, _, _, _, _, _, _, _, _, _⟩, _, _, h, hway => by
    rw [Query.wayTo] at hway
    have hbind := h
    rw [Query.bind] at hbind
    rcases hb : bindFirst threshold column type source tables with ⟨bound, ts⟩ | ⟨err, ts⟩
    · simp only [hb] at hbind
      obtain ⟨hnames, hfrom⟩ := bindFirst_same hb hway
      cases hbind
      refine Query.same_of_bind h ?_ ?_
      · rw [Query.standIn_tables]
        exact hnames
      · rw [Query.standIn_tables]
        exact hfrom
    · simp only [hb] at hbind
      cases hbind

theorem bindFirst_same : ∀ {ts ts' : List Table} {e : Expr}, bindFirst threshold column type source ts = .ok e ts' →
    (∀ x ∈ firstWayTo source ts, ∀ e p, x.bind threshold column type source = .ok e p → x.hasColumn e = true) →
    ts'.map (fun t => (t.name, t.columnNames I)) = ts.map (fun t => (t.name, t.columnNames I)) ∧
      ∀ outer rows, fromRows I outer ts' rows = fromRows I outer ts rows
  | [], _, _, h, _ => by
    rw [bindFirst] at h
    cases h
  | t :: ts, _, _, h, hway => by
    rw [bindFirst] at h
    rw [firstWayTo] at hway
    by_cases ht : t.serves source = true
    · rw [if_pos ht] at h hway
      obtain ⟨t', hbind, rfl⟩ := mapState_ok h
      have hsame : t.SameParts I t' := Table.bind_same hbind hway
      constructor
      · rw [List.map_cons, List.map_cons, hsame.name, hsame.columnNames]
      · intro outer rows
        simp only [fromRows, hsame.parts]
    · rw [if_neg ht] at h hway
      obtain ⟨ts', hbind, rfl⟩ := mapState_ok h
      obtain ⟨hnames, hfrom⟩ := bindFirst_same hbind hway
      constructor
      · rw [List.map_cons, List.map_cons, hnames]
      · intro outer rows
        rw [fromRows, fromRows, hfrom]

end

/-- With the column in its output and in those on the way below it, a query returns the rows that it did. -/
theorem Query.ShownAs.same {x y : Query} (h : x.ShownAs threshold column type source y)
    (hway : ∀ z ∈ x :: x.wayTo source, ∀ e p, z.bind threshold column type source = .ok e p → z.hasColumn e = true) :
    x.SameRows I y := by
  obtain ⟨name, e', hbelow⟩ := h
  obtain ⟨e, p, hb, hexpose⟩ := bindBelow_ok hbelow
  rw [List.forall_mem_cons] at hway
  have hp : p.hasColumn e = true := (hasColumn_of_bind hb e).trans (hway.1 e p hb)
  obtain rfl : y = p := expose_of_hasColumn (column_of_bind hb) hexpose hp
  exact bind_same hb hway.2

/-! ## Columns that are gained -/

omit [DecidableEq V] in
/-- A slot that is added is one more column, except where an empty projection has stood for all columns. -/
theorem Query.projection_of_columnNames {q r : Query} {e e' : Expr} {name : String} (he : e.unnamed.isColumn = true)
    (h : q.expose name e = .ok e' r) (hout : q.starred = true ∨ q.projection ≠ [])
    (hsame : r.columnNames I = q.columnNames I) : r.projection = q.projection := by
  obtain ⟨-, rfl⟩ := expose_shown h
  split at hsame
  · rename_i hcovered
    rw [if_pos hcovered]
  rename_i hcovered
  rw [if_neg hcovered]
  obtain ⟨added, hgains, -⟩ := addSlot_spec e q
  -- Both lists of columns begin with the same ones, so that the new slots have none.
  have hcolumns :
      added.flatMap (slotColumns (q.tables.map fun t => (t.name, t.columnNames I)) Expr.outputName) = [] := by
    have htables : (q.addSlot e).2.tables = q.tables := by rw [hgains.eq]
    have hwildcard : (q.addSlot e).2.wildcardTable = q.wildcardTable := by rw [hgains.eq]; rfl
    rw [columnNames_eq, columnNames_eq, htables, columnsOf, columnsOf, hgains.starred, hwildcard, hgains.projection,
      List.flatMap_append, ← List.append_assoc] at hsame
    refine List.append_right_eq_self.1 (Eq.trans ?_ hsame)
    rcases hout with hs | hne
    · rw [hs]; rfl
    · have hempty (slots : List Expr) : (q.projection ++ slots).isEmpty = false := by simp [hne]
      have hempty' : q.projection.isEmpty = false := by simp [hne]
      rw [hempty, hempty']
  -- A slot that is no wildcard has one column.
  have hnone : added = [] := by
    refine List.eq_nil_iff_forall_not_mem.2 fun slot hslot => ?_
    obtain ⟨x, hx, hun⟩ := hgains.sources slot hslot
    have hstar : slot.isStar = false := by
      rw [List.mem_singleton.1 hx, stripCasts_of_column he] at hun
      exact Expr.isStar_of_unnamed (by rw [hun]; exact Expr.isStar_of_isColumn he)
    have hcolumn := List.flatMap_eq_nil_iff.1 hcolumns slot hslot
    rw [slotColumns_of_not_star hstar] at hcolumn
    cases hcolumn
  rw [hgains.projection, hnone, List.append_nil]

theorem Table.wayTo_cases : ∀ {t : Table} {way : List Query}, t.wayTo source = way →
    way = [] ∨ ∃ c : Query, way = c :: c.wayTo source
  | .base .., _, h => .inl (by rw [← h, Table.wayTo])
  | .join _ target _, _, h => by
    rw [Table.wayTo] at h
    exact wayTo_cases h
  | .nested q, _, h => .inr ⟨q, by rw [← h, Table.wayTo]⟩

/-- Behind the first query on the way comes the way from there. -/
theorem Query.wayTo_tail {q c : Query} {way : List Query} (h : q.wayTo source = c :: way) : c.wayTo source = way := by
  have hfirst (ts : List Table) :
      firstWayTo source ts = [] ∨ ∃ c : Query, firstWayTo source ts = c :: c.wayTo source := by
    induction ts with
    | nil => exact .inl (by rw [firstWayTo])
    | cons t ts ih =>
      rw [firstWayTo]
      split
      · exact Table.wayTo_cases rfl
      · exact ih
  cases q
  rw [Query.wayTo] at h
  rcases hfirst _ with hnil | ⟨d, hcons⟩
  · rw [h] at hnil
    cases hnil
  · rw [h] at hcons
    cases hcons
    rfl

/-- The way from a query on the way is part of it. -/
theorem Query.wayTo_subset : ∀ {way : List Query} {q x : Query}, q.wayTo source = way → x ∈ way → x.wayTo source ⊆ way
  | [], _, _, _, hx => by cases hx
  | c :: way, q, x, hway, hx => by
    have htail := wayTo_tail hway
    rcases List.mem_cons.1 hx with rfl | hx
    · rw [htail]
      exact List.subset_cons_self ..
    · exact List.subset_cons_of_subset _ (wayTo_subset htail hx)

/-- The queries on the way have had the column if all of them return what they did. Where all below one do, its own
columns show whether it has gained a slot. -/
theorem Query.hasColumn_of_same : ∀ {way : List Query} {q : Query}, q.wayTo source = way →
    (∀ x ∈ way, x.starred = true ∨ x.projection ≠ []) →
    (∀ x ∈ way, ∃ y, x.ShownAs threshold column type source y ∧ x.SameRows I y) →
    ∀ x ∈ way, ∀ e p, x.bind threshold column type source = .ok e p → x.hasColumn e = true
  | [], _, _, _, _ => by simp
  | c :: way, q, hway, hout, hsame => by
    have htail := wayTo_tail hway
    rw [List.forall_mem_cons] at hout hsame
    have hbelow := hasColumn_of_same htail hout.2 hsame.2
    obtain ⟨y, hshown, hrows⟩ := hsame.1
    refine List.forall_mem_cons.2 ⟨hshown.projection_iff.1 ?_, hbelow⟩
    obtain ⟨name, e', hbound⟩ := hshown
    obtain ⟨e, p, hb, hexpose⟩ := bindBelow_ok hbound
    have hp : c.SameRows I p := bind_same hb (htail ▸ hbelow)
    have hkeeps := bind_keeps hb
    have hslots : p.projection = c.projection := by rw [hkeeps]
    have hstarred : p.starred = c.starred := by rw [hkeeps]
    rw [← hslots, ← hstarred] at hout
    rw [← hslots]
    exact projection_of_columnNames (column_of_bind hb) hexpose hout.1 (hrows.columnNames.trans hp.columnNames.symm)

end Bind

/-! ## DISTINCT below the query -/

namespace Query

theorem resolveColumn_eq_bind {column : String} (hcolumn : column.isEmpty = false) (settings : Settings)
    (type : DataType) (source : Source) (q : Query) :
    resolveColumn settings column type source q = q.bind settings.indexThreshold column type source := by
  unfold resolveColumn
  rw [hcolumn]
  rfl

/-- Nothing is given for the empty name. -/
theorem column_of_resolveColumn {settings : Settings} {column : String} {type : DataType} {source : Source}
    {q r : Query} {e : Expr} (h : resolveColumn settings column type source q = .ok e r) :
    column.isEmpty = false := by
  unfold resolveColumn at h
  split at h
  · cases h
  · rename_i hempty
    exact Bool.eq_false_iff.2 hempty

/-- Below the query, all DISTINCT queries keep their slots when a column is bound exactly if each of them that is
on the way to the column has had it in its output. A query returns the rows that it has returned before, also
where its wildcard takes them from below, if all others on the way below it have had the column too. All queries
do so exactly if all on the way have had it, where none of these has an empty projection, which one slot for the
column may stand for as well. -/
theorem resolveColumn_distinct_iff {V : Type} [DecidableEq V] (I : Interpretation V) {settings : Settings}
    {column : String} {type : DataType} {source : Source} {q r : Query} {e : Expr}
    (h : resolveColumn settings column type source q = .ok e r) :
    ((∀ i path x, q.at? (i :: path) = some x →
        ∃ y, r.at? (i :: path) = some y ∧ (x.distinct = true → y.projection = x.projection)) ↔
      ∀ x ∈ q.wayTo source, x.distinct = true → x.ShowsAlready settings column type source) ∧
    (∀ i path x, q.at? (i :: path) = some x →
      (x ∈ q.wayTo source → ∀ z ∈ x :: x.wayTo source, z.ShowsAlready settings column type source) →
        ∃ y, r.at? (i :: path) = some y ∧ x.SameRows I y) ∧
    ((∀ x ∈ q.wayTo source, x.starred = true ∨ x.projection ≠ []) →
      ((∀ i path x, q.at? (i :: path) = some x → ∃ y, r.at? (i :: path) = some y ∧ x.SameRows I y) ↔
        ∀ x ∈ q.wayTo source, x.ShowsAlready settings column type source)) := by
  have hcolumn := column_of_resolveColumn h
  unfold ShowsAlready
  simp only [resolveColumn_eq_bind hcolumn] at h ⊢
  have halong := bind_changedAlong h
  -- Off the way a query stays as it is; on the way it keeps its rows where the column was shown already.
  have hrows (i : Nat) (path : List Nat) (x : Query) (hx : q.at? (i :: path) = some x)
      (hway : x ∈ q.wayTo source → ∀ z ∈ x :: x.wayTo source,
        ∀ e p, z.bind settings.indexThreshold column type source = .ok e p → z.hasColumn e = true) :
      ∃ y, r.at? (i :: path) = some y ∧ x.SameRows I y := by
    obtain ⟨y, hy, rfl | ⟨hx, hshown⟩⟩ := halong.places (i := (i, path)) hx
    · exact ⟨y, hy, rfl, fun _ => rfl⟩
    · exact ⟨y, hy, hshown.same (hway hx)⟩
  refine ⟨⟨fun hkeeps x hx hd => ?_, fun hway i path x hx => ?_⟩, hrows, fun hout =>
    ⟨fun hsame => ?_, fun hway i path x hx => ?_⟩⟩
  · obtain ⟨⟨i, path⟩, y, hold, hnew, hshown⟩ := halong.changed x hx
    obtain ⟨y', hy', hsame⟩ := hkeeps i path x hold
    obtain rfl : y = y' := Option.some.inj (hnew.symm.trans hy')
    exact hshown.projection_iff.1 (hsame hd)
  · obtain ⟨y, hy, rfl | ⟨hx, hshown⟩⟩ := halong.places (i := (i, path)) hx
    · exact ⟨y, hy, fun _ => rfl⟩
    · exact ⟨y, hy, fun hd => hshown.projection_iff.2 (hway x hx hd)⟩
  · -- Rows that are the same have the same columns, which leaves no room for a new slot.
    refine hasColumn_of_same (I := I) rfl hout fun x hx => ?_
    obtain ⟨⟨i, path⟩, y, hold, hnew, hshown⟩ := halong.changed x hx
    obtain ⟨y', hy', hsame⟩ := hsame i path x hold
    obtain rfl : y = y' := Option.some.inj (hnew.symm.trans hy')
    exact ⟨y, hshown, hsame⟩
  · refine hrows i path x hx fun hx => List.forall_mem_cons.2 ⟨hway x hx, fun z hz => hway z ?_⟩
    exact wayTo_subset rfl hx hz

/-- The identifier of a person is in the output of the DISTINCT query already. -/
theorem resolveColumn_distinct_of_slot :
    let n : Query := {
      tables := [.base "People" none "p" (some ⟨1⟩)]
      projection := [.column "p" (some ⟨1⟩) "Name" .text, .column "p" (some ⟨1⟩) "Id" .int32]
      distinct := true
      name := some "t" }
    let q : Query := { tables := [.nested n] }
    ∃ e r, resolveColumn {} "Id" .int32 ⟨1⟩ q = .ok e r ∧ n.distinct = true ∧
      ∃ y, r.at? [0] = some y ∧ y.projection = n.projection ∧ y.rows .people [] = n.rows .people [] := by
  intro n q
  have hway : ∀ x ∈ q.wayTo ⟨1⟩, x.ShowsAlready {} "Id" .int32 ⟨1⟩ := by
    intro x hx e r h
    cases List.mem_singleton.1 hx
    cases h
    rfl
  obtain ⟨e, r, h⟩ : ∃ e r, resolveColumn {} "Id" .int32 ⟨1⟩ q = .ok e r := ⟨_, _, rfl⟩
  refine ⟨e, r, h, rfl, ?_⟩
  obtain ⟨hslots, -, hrows⟩ := resolveColumn_distinct_iff .people h
  obtain ⟨y, hy, hsame⟩ := hslots.2 (fun x hx _ => hway x hx) 0 [] n rfl
  have hout : ∀ x ∈ q.wayTo ⟨1⟩, x.starred = true ∨ x.projection ≠ [] := by
    intro x hx
    cases List.mem_singleton.1 hx
    exact .inr (List.cons_ne_nil _ _)
  obtain ⟨y', hy', hsame'⟩ := (hrows hout).2 hway 0 [] n rfl
  obtain rfl : y = y' := Option.some.inj (hy.symm.trans hy')
  exact ⟨y, hy, hsame rfl, hsame'.rows []⟩

/-- DISTINCT over names comes to range over names and identifiers, so that a name may come twice. -/
theorem resolveColumn_widens_distinct :
    let n : Query := {
      tables := [.base "People" none "p" (some ⟨1⟩)]
      projection := [.column "p" (some ⟨1⟩) "Name" .text]
      distinct := true
      name := some "t" }
    let q : Query := { tables := [.nested n] }
    q.Composed ∧ ∃ e r, resolveColumn {} "Id" .int32 ⟨1⟩ q = .ok e r ∧ q.at? [0] = some n ∧
      ∃ y, r.at? [0] = some y ∧ y.distinct = true ∧
        y.projection = n.projection ++ [.column "p" (some ⟨1⟩) "Id" .int32] := by
  intro n q
  have hn : n.Composed := (Composed.fresh (some "t")).apply (.appendTable (.base "People" none "p" (some ⟨1⟩)))
    |>.apply (.project (.column "p" (some ⟨1⟩) "Name" .text) true)
    |>.apply (.distinctRows true)
  have hq : q.Composed := (Composed.fresh none).applyTo (.appendTable (.nested n)) hn
  exact ⟨hq, _, _, rfl, rfl, _, rfl, rfl, rfl⟩

end Query
end QueryTree
