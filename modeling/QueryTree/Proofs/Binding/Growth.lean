/-
What binding changes. A query and those nested in its tables gain slots for columns and remember
columns in memos, and nothing else happens to them, whether the binding succeeds or not.
-/
import QueryTree.Query.Binding
import QueryTree.Proofs.Invariants

namespace QueryTree

@[simp] theorem stateOf_mapState {ε σ τ α : Type} (f : σ → τ) (r : EStateM.Result ε σ α) :
    stateOf (mapState f r) = f (stateOf r) := by
  cases r <;> rfl

theorem mapState_ok {ε σ τ α : Type} {f : σ → τ} {r : EStateM.Result ε σ α} {a : α} {t : τ}
    (h : mapState f r = .ok a t) : ∃ s, r = .ok a s ∧ t = f s := by
  cases r with
  | ok b s => cases h; exact ⟨s, rfl, rfl⟩
  | error e s => cases h

/-! ## The query in a table -/

theorem Table.name_unjoined : ∀ t : Table, t.unjoined.name = t.name
  | .base .. | .nested _ => rfl
  | .join _ target _ => name_unjoined target

theorem Table.unjoined_of_query? {t : Table} {x : Query} (h : t.query? = some x) : t.unjoined = .nested x := by
  unfold query? at h
  split at h
  · rename_i heq
    cases h; exact heq
  · cases h

theorem Table.name_of_query? {t : Table} {x : Query} (h : t.query? = some x) : t.name = x.name := by
  rw [← name_unjoined, unjoined_of_query? h]; rfl

theorem Table.unjoined_withUnjoined {x y : Query} : ∀ {t : Table}, t.query? = some x →
    (t.withUnjoined (.nested y)).unjoined = .nested y
  | .base .., h => by cases h
  | .join _ target _, h => unjoined_withUnjoined (t := target) h
  | .nested _, _ => rfl

theorem Table.query?_withUnjoined {t : Table} {x y : Query} (h : t.query? = some x) :
    (t.withUnjoined (.nested y)).query? = some y := by
  rw [query?, unjoined_withUnjoined h]

/-- The table is still listed under its name when the query in it changes without changing its name. -/
theorem Table.name_withUnjoined {t : Table} {x y : Query} (h : t.query? = some x) (hname : y.name = x.name) :
    (t.withUnjoined (.nested y)).name = t.name := by
  rw [← name_unjoined, unjoined_withUnjoined h, name_of_query? h]
  exact hname

/-- What the wildcard stands for is seen from the names of tables. -/
theorem Query.wildcardTable_congr {q q' : Query} (hchoice : q'.wildcardChoice = q.wildcardChoice)
    (htables : q'.tables.map Table.name = q.tables.map Table.name) : q'.wildcardTable = q.wildcardTable := by
  unfold wildcardTable
  rw [hchoice]
  cases q.wildcardChoice with
  | some name => rfl
  | none =>
    rcases hq : q.tables with _ | ⟨t, _ | ⟨u, ts⟩⟩ <;> rcases hq' : q'.tables with _ | ⟨t', _ | ⟨u', ts'⟩⟩ <;>
      simp_all

/-! ## Columns that equal columns -/

namespace Expr

theorem isColumn_unnamed {e : Expr} (h : e.isColumn = true) : e.unnamed.isColumn = true := by
  cases e with
  | column | output => exact h
  | _ => cases h

theorem isColumn_of_equiv {a b : Expr} (h : a.equiv b = true) (hb : b.unnamed.isColumn = true) :
    a.unnamed.isColumn = true := by
  rw [← unnamed_equiv] at h
  have ha := isNamed_unnamed a
  generalize a.unnamed = u at h ha ⊢
  cases u with
  | column | output => rfl
  | named => cases ha
  | _ =>
    rw [equiv] at h
    split at h
    · rename_i heq; rw [heq] at hb; cases hb
    · cases h

end Expr

namespace StarMemo

/-- What is found in the memo equals what is looked for. -/
theorem equiv_of_find? {e : Expr} {memo : StarMemo Expr} {i : Nat} (h : find? e memo = some i) :
    ∃ entry, memo.entries[i]? = some entry ∧ entry.equiv e = true := by
  unfold find? at h
  split at h
  · obtain ⟨hlt, heq, -⟩ := List.findIdx?_eq_some_iff_getElem.1 h
    exact ⟨_, List.getElem?_eq_getElem hlt, heq⟩
  · have hany := List.find?_some h
    rw [Option.any_eq_true] at hany
    exact hany

theorem remember_cases (threshold : Nat) (e : Expr) (memo : StarMemo Expr) :
    (∃ entry ∈ memo.entries, entry.equiv e = true ∧ remember threshold e memo = (entry, memo)) ∨
      ((remember threshold e memo).1 = e ∧ (remember threshold e memo).2.entries = memo.entries ++ [e]) := by
  unfold remember
  rcases h : find? e memo with _ | i
  · exact .inr ⟨rfl, rfl⟩
  · obtain ⟨entry, hi, heq⟩ := equiv_of_find? h
    exact .inl ⟨entry, List.mem_of_getElem? hi, heq, by simp [List.getD_eq_getElem?_getD, hi]⟩

end StarMemo

/-! ## Growth -/

/-- `q'` is `q` with slots and remembered columns added, here or in nested queries. -/
inductive Query.Grows : Query → Query → Prop
  | refl (q : Query) : Grows q q
  | trans {q r s : Query} : Grows q r → Grows r s → Grows q s
  | slot (q : Query) {e : Expr} : e.unnamed.isColumn = true → Grows q (q.addSlot e).2
  | memo (q : Query) {e : Expr} (threshold : Nat) : e.isColumn = true →
      Grows q { q with memo := (q.memo.remember threshold e).2 }
  | table {q c c' : Query} {t : Table} (i : Nat) : q.tables[i]? = some t → t.query? = some c → Grows c c' →
      Grows q { q with tables := q.tables.set i (t.withUnjoined (.nested c')) }

/-- The query nested in the table, if any, grows. -/
inductive Table.Grows (t : Table) : Table → Prop
  | same : Grows t t
  | nested {c c' : Query} : t.query? = some c → c.Grows c' → Grows t (t.withUnjoined (.nested c'))

/-- One of the tables grows. -/
inductive TablesGrow (ts : List Table) : List Table → Prop
  | same : TablesGrow ts ts
  | table {t t' : Table} (i : Nat) : ts[i]? = some t → t.Grows t' → TablesGrow ts (ts.set i t')

theorem Query.grows_of_tables {q : Query} {ts : List Table} (h : TablesGrow q.tables ts) :
    q.Grows { q with tables := ts } := by
  cases h with
  | same => cases q; exact .refl _
  | table i hi ht =>
    cases ht with
    | same =>
      obtain ⟨hlt, heq⟩ := List.getElem?_eq_some_iff.1 hi
      rw [← heq, List.set_getElem_self]
      cases q; exact .refl _
    | nested hc hg => exact .table i hi hc hg

theorem Query.Grows.name {q q' : Query} (h : q.Grows q') : q'.name = q.name := by
  induction h with
  | refl _ => rfl
  | trans _ _ ih ih' => exact ih'.trans ih
  | slot q _ => exact project_name _ false q
  | memo _ _ _ | table _ _ _ _ _ => rfl

theorem TablesGrow.cons {ts ts' : List Table} (t : Table) (h : TablesGrow ts ts') :
    TablesGrow (t :: ts) (t :: ts') := by
  cases h with
  | same => exact .same
  | table i hi ht => exact .table (i + 1) hi ht

namespace Query

/-- What stands for a column is a column. -/
theorem standIn_column (threshold : Nat) {bound : Expr} (hb : bound.isColumn = true) (q : Query) :
    q.Grows (q.standIn threshold bound).2 ∧ (q.standIn threshold bound).1.unnamed.isColumn = true := by
  unfold standIn
  split
  · refine ⟨.memo q threshold hb, ?_⟩
    rcases StarMemo.remember_cases threshold bound q.memo with ⟨entry, -, heq, hr⟩ | ⟨hr, -⟩
    · rw [hr]; exact Expr.isColumn_of_equiv heq (Expr.isColumn_unnamed hb)
    · simp only [hr]; exact Expr.isColumn_unnamed hb
  · refine ⟨.refl q, ?_⟩
    change ((q.projection.find? (·.equiv bound)).getD bound).unnamed.isColumn = true
    rcases hf : q.projection.find? (·.equiv bound) with _ | slot
    · rw [hf]; exact Expr.isColumn_unnamed hb
    · have hslot : slot.equiv bound = true := by simpa using List.find?_some hf
      rw [hf]; exact Expr.isColumn_of_equiv hslot (Expr.isColumn_unnamed hb)

theorem expose_column (name : String) {e : Expr} (he : e.unnamed.isColumn = true) (q : Query) :
    q.Grows (stateOf (q.expose name e)) ∧ ∀ e' q', q.expose name e = .ok e' q' → e'.isColumn = true := by
  unfold expose
  generalize hshown : (if q.starred && q.wildcardCovers e then (e, q) else q.addSlot e) = shown
  have hg : q.Grows shown.2 := by
    rw [← hshown]; split
    · exact .refl q
    · exact .slot q he
  rcases shown with ⟨slot, q'⟩
  simp only
  rcases hl : slot.lift name with err | lifted
  · exact ⟨hg, fun _ _ heq => by cases heq⟩
  · obtain ⟨n, -, rfl⟩ := lift_ok hl
    exact ⟨hg, fun _ _ heq => by cases heq; rfl⟩

end Query

section Bind

variable (threshold : Nat) (column : String) (type : DataType) (source : Source)

theorem Query.bind_eq (q : Query) : q.bind threshold column type source =
    match bindFirst threshold column type source q.tables with
    | .error err tables => .error err { q with tables }
    | .ok bound tables =>
      .ok ({ q with tables }.standIn threshold bound).1 ({ q with tables }.standIn threshold bound).2 := by
  cases q; unfold Query.bind; rfl

/-- Binding in a query, by way of its tables. -/
theorem Query.grows_bind_of_tables {q : Query}
    (hg : TablesGrow q.tables (stateOf (bindFirst threshold column type source q.tables)))
    (hc : ∀ e ts, bindFirst threshold column type source q.tables = .ok e ts → e.isColumn = true) :
    q.Grows (stateOf (q.bind threshold column type source)) ∧
      ∀ e q', q.bind threshold column type source = .ok e q' → e.unnamed.isColumn = true := by
  rw [Query.bind_eq]
  rcases hb : bindFirst threshold column type source q.tables with ⟨bound, tables⟩ | ⟨err, tables⟩
  · rw [hb] at hg
    obtain ⟨hgrow, hstand⟩ := Query.standIn_column threshold (hc bound tables hb) { q with tables }
    exact ⟨(Query.grows_of_tables hg).trans hgrow, fun e q' heq => by cases heq; exact hstand⟩
  · rw [hb] at hg
    exact ⟨Query.grows_of_tables hg, fun _ _ heq => by cases heq⟩

mutual

theorem Table.grows_bind : ∀ t : Table, t.Grows (stateOf (t.bind threshold column type source)) ∧
    ∀ e t', t.bind threshold column type source = .ok e t' → e.isColumn = true
  | .base .. => ⟨.same, fun _ _ heq => by cases heq; rfl⟩
  | .join kind target condition => by
    obtain ⟨hg, hc⟩ := Table.grows_bind target
    rw [Table.bind, stateOf_mapState]
    refine ⟨?_, fun e t' heq => ?_⟩
    · generalize stateOf (target.bind threshold column type source) = target' at hg
      cases hg with
      | same => exact .same
      | nested hq hgrow => exact .nested (t := .join kind target condition) hq hgrow
    · obtain ⟨target', ht, -⟩ := mapState_ok heq
      exact hc e target' ht
  | .nested q => by
    rw [Table.bind]
    rcases q.name with _ | name
    · exact ⟨.same, fun _ _ heq => by cases heq⟩
    obtain ⟨hg, hc⟩ := Query.grows_bind q
    simp only [stateOf_mapState]
    rcases hb : q.bind threshold column type source with ⟨e, q'⟩ | ⟨err, q'⟩
    · rw [hb] at hg
      obtain ⟨hgrow, hcol⟩ := q'.expose_column name (hc e q' hb)
      refine ⟨.nested (t := .nested q) rfl (hg.trans hgrow), fun e' t' heq => ?_⟩
      obtain ⟨q'', hq, -⟩ := mapState_ok heq
      exact hcol e' q'' hq
    · rw [hb] at hg
      exact ⟨.nested (t := .nested q) rfl hg, fun _ _ heq => by cases heq⟩

theorem Query.grows_bind : ∀ q : Query, q.Grows (stateOf (q.bind threshold column type source)) ∧
    ∀ e q', q.bind threshold column type source = .ok e q' → e.unnamed.isColumn = true
  | ⟨tables, _, _, _, _, _, _, _, _, _, _, _⟩ =>
    Query.grows_bind_of_tables threshold column type source (grows_bindFirst tables).1 (grows_bindFirst tables).2

theorem grows_bindFirst : ∀ ts : List Table, TablesGrow ts (stateOf (bindFirst threshold column type source ts)) ∧
    ∀ e ts', bindFirst threshold column type source ts = .ok e ts' → e.isColumn = true
  | [] => ⟨.same, fun _ _ heq => by cases heq⟩
  | t :: ts => by
    rw [bindFirst]
    split
    · obtain ⟨hg, hc⟩ := Table.grows_bind t
      rw [stateOf_mapState]
      refine ⟨.table (t := t) 0 rfl hg, fun e ts' heq => ?_⟩
      obtain ⟨t', ht, -⟩ := mapState_ok heq
      exact hc e t' ht
    · obtain ⟨hg, hc⟩ := grows_bindFirst ts
      rw [stateOf_mapState]
      refine ⟨hg.cons t, fun e ts' heq => ?_⟩
      obtain ⟨ts'', hts, -⟩ := mapState_ok heq
      exact hc e ts'' hts

end

end Bind

namespace Query

theorem grows_resolveColumn (settings : Settings) (column : String) (type : DataType) (source : Source) (q : Query) :
    q.Grows (stateOf (resolveColumn settings column type source q)) := by
  unfold resolveColumn
  split
  · exact .refl q
  · exact (grows_bind _ column type source q).1

theorem grows_resolveProperty (settings : Settings) (properties : PropertyMap) (property : String) (source : Source)
    (q : Query) : q.Grows (stateOf (resolveProperty settings properties property source q)) := by
  unfold resolveProperty
  rcases properties.column? property source with _ | ⟨column, type⟩
  · exact .refl q
  · exact grows_resolveColumn settings column type source q

end Query
end QueryTree
