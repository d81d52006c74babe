/-
Requests for one column that are made again. What the first one leaves behind settles the answer: slots
and remembered columns are only ever appended, so the first that equals the column stays the first, at
every level of nesting, whatever else is bound in between.
-/
import QueryTree.Proofs.Binding.Scan
import QueryTree.Proofs.Equality
import QueryTree.Proofs.Failure

namespace QueryTree

/-! ## Equality with columns -/

namespace Expr

theorem children_of_isColumn {e : Expr} (h : e.unnamed.isColumn = true) : e.children = [] :=
  List.eq_nil_iff_forall_not_mem.2 (below_of_isColumn h)

/-- What equals a column is that column, up to names and query sources. -/
theorem erased_of_equiv_column {a b : Expr} (h : a.equiv b = true) (hb : b.unnamed.isColumn = true) :
    a.erased = b.erased := by
  have hchildren := children_of_equiv h
  rw [QueriesEqual, children_of_isColumn hb, List.forall₂_nil_right_iff] at hchildren
  exact (sameErased_iff_eq hchildren).1 ((equiv_iff a b).1 h)

theorem equiv_congr_right {b c : Expr} (h : b.equiv c = true) (hc : c.unnamed.isColumn = true) (a : Expr) :
    a.equiv b = a.equiv c :=
  equiv_congr rfl (erased_of_equiv_column h hc)

theorem equiv_self_of_column {e : Expr} (h : e.unnamed.isColumn = true) : e.equiv e = true := by
  rw [equiv_iff, sameErased_iff_eq (children_of_isColumn h)]

end Expr

/-! ## First entries -/

/-- The first entry for a column is found in a memo, which stays as it is. -/
theorem StarMemo.Consistent.remember_of_find? {memo : StarMemo Expr} (h : memo.Consistent) (threshold : Nat)
    {bound e : Expr} (hf : memo.entries.find? (·.equiv bound) = some e) :
    memo.remember threshold bound = (e, memo) := by
  rw [List.find?_eq_bind_findIdx?_getElem?, ← h.find?_eq bound] at hf
  obtain ⟨i, hi, he⟩ := Option.bind_eq_some_iff.1 hf
  unfold StarMemo.remember
  rw [hi]
  simp only [List.getD_eq_getElem?_getD, he, Option.getD_some]

theorem StarMemo.find?_scan {bound : Expr} (hb : bound.unnamed.isColumn = true) (entries : List Expr) :
    (scan bound entries).2.find? (·.equiv bound) = some (scan bound entries).1 := by
  unfold scan
  rcases hf : entries.find? (·.equiv bound) with _ | e
  · simp [List.find?_append, hf, Expr.equiv_self_of_column hb]
  · simp only [hf]

/-- What the memo gives for a column is its first entry for it from then on. -/
theorem StarMemo.Consistent.find?_remember {memo : StarMemo Expr} (h : memo.Consistent) (threshold : Nat) {bound : Expr}
    (hb : bound.unnamed.isColumn = true) :
    (memo.remember threshold bound).2.entries.find? (·.equiv bound) = some (memo.remember threshold bound).1 := by
  obtain ⟨hgiven, hentries⟩ := Prod.ext_iff.1 (h.remember threshold bound).1
  simp only at hgiven hentries
  rw [hgiven, hentries, find?_scan hb]

namespace Query

/-- The first slot for a column is the slot for it, and nothing is added. -/
theorem addSlot_of_find? {e slot : Expr} {q : Query} (he : e.unnamed.isColumn = true)
    (hf : q.projection.find? (·.equiv e) = some slot) : q.addSlot e = (slot, q) := by
  rw [List.find?_eq_bind_findIdx?_getElem?] at hf
  obtain ⟨i, hi, hslot⟩ := Option.bind_eq_some_iff.1 hf
  have hof : q.slotOf e = some i := hi
  simp only [addSlot, project, stripCasts_of_column he, Bool.false_eq_true, if_false, hof,
    List.getD_eq_getElem?_getD, hslot, Option.getD_some]

/-- The slot for a column is the first one for it from then on. -/
theorem find?_addSlot {e : Expr} (he : e.unnamed.isColumn = true) (q : Query) :
    (q.addSlot e).2.projection.find? (·.equiv e) = some (q.addSlot e).1 := by
  rcases hf : q.projection.find? (·.equiv e) with _ | slot
  · have hof : q.slotOf e = none := by
      rw [List.find?_eq_none] at hf
      exact List.findIdx?_eq_none_iff.2 fun x hx => by simpa using hf x hx
    obtain ⟨slot, keys, hun, heq, -⟩ := appendValue_spec e q
    have hslot : slot.equiv e = true := by
      rw [← Expr.unnamed_equiv, hun, Expr.unnamed_equiv]
      exact Expr.equiv_self_of_column he
    simp [addSlot, project, stripCasts_of_column he, hof, heq, List.find?_append, hf, hslot]
  · rw [addSlot_of_find? he hf]
    exact hf

/-! ## Answers of one query -/

/-- What the query shows for a column of its tables: through its wildcard what it remembers, where the
wildcard has that, else its first slot for the column. -/
def Exposes (bound shown : Expr) (q : Query) : Prop :=
  if q.starred then ∃ e, q.memo.entries.find? (·.equiv bound) = some e ∧
    if q.wildcardCovers e then shown = e else q.projection.find? (·.equiv bound) = some shown
  else q.projection.find? (·.equiv bound) = some shown

/-- What stands for a column of the tables. -/
def StandsFor (bound e : Expr) (q : Query) : Prop :=
  if q.starred then q.memo.entries.find? (·.equiv bound) = some e
  else (q.projection.find? (·.equiv bound)).getD bound = e

end Query

/-- An outcome in a given state. -/
def outcome {σ : Type} (s : σ) : Except Error Expr → EStateM.Result Error σ Expr
  | .ok e => .ok e s
  | .error err => .error err s

@[simp] theorem mapState_outcome {σ τ : Type} (f : σ → τ) (s : σ) (r : Except Error Expr) :
    mapState f (outcome s r) = outcome (f s) r := by
  cases r <;> rfl

namespace Query

variable {q q' : Query} {bound e shown : Expr}

theorem StandsFor.standIn (hm : q.memo.Consistent) (h : q.StandsFor bound e) (threshold : Nat) :
    q.standIn threshold bound = (e, q) := by
  unfold StandsFor at h
  unfold Query.standIn
  by_cases hs : q.starred = true
  · rw [if_pos hs] at h
    rw [if_pos hs, hm.remember_of_find? threshold h]
    cases q; rfl
  · rw [if_neg hs] at h
    rw [if_neg hs, h]

theorem standsFor_standIn (hm : q.memo.Consistent) (hb : bound.unnamed.isColumn = true) (threshold : Nat) :
    (q.standIn threshold bound).2.StandsFor bound (q.standIn threshold bound).1 := by
  unfold StandsFor Query.standIn
  by_cases hs : q.starred = true
  · simp only [hs, if_true]
    exact hm.find?_remember threshold hb
  · simp only [hs, Bool.false_eq_true, if_false]

theorem expose_eq {name : String}
    (h : (if q.starred && q.wildcardCovers e then (e, q) else q.addSlot e) = (shown, q')) :
    q.expose name e = outcome q' (shown.lift name) := by
  unfold expose
  simp only [h]
  cases shown.lift name <;> rfl

/-- A query that exposes a column already gives it again and stays as it is. -/
theorem Exposes.expose (hm : q.memo.Consistent) (hb : bound.unnamed.isColumn = true) (h : q.Exposes bound shown)
    (threshold : Nat) (name : String) :
    (q.standIn threshold bound).2.expose name (q.standIn threshold bound).1 = outcome q (shown.lift name) := by
  -- A slot for the column is one for anything that equals it.
  have hslot {e : Expr} (he : e.equiv bound = true) (hf : q.projection.find? (·.equiv bound) = some shown) :
      q.addSlot e = (shown, q) := by
    refine addSlot_of_find? (Expr.isColumn_of_equiv he hb) ?_
    simp only [Expr.equiv_congr_right he hb]
    exact hf
  unfold Exposes at h
  by_cases hs : q.starred = true
  · rw [if_pos hs] at h
    obtain ⟨e, hfind, h⟩ := h
    have hstands : q.StandsFor bound e := by rw [StandsFor, if_pos hs]; exact hfind
    rw [hstands.standIn hm]
    refine expose_eq ?_
    by_cases hw : q.wildcardCovers e = true
    · rw [if_pos hw] at h
      rw [hs, hw, h]; rfl
    · rw [if_neg hw] at h
      rw [if_neg (by simp [hw]), hslot (by simpa using List.find?_some hfind) h]
  · rw [if_neg hs] at h
    have hstands : q.StandsFor bound shown := by rw [StandsFor, if_neg hs, h]; rfl
    rw [hstands.standIn hm]
    refine expose_eq ?_
    rw [if_neg (by simp [hs]), hslot (by simpa using List.find?_some h) h]

theorem equiv_standIn (hb : bound.unnamed.isColumn = true) (threshold : Nat) (q : Query) :
    (q.standIn threshold bound).1.equiv bound = true := by
  unfold Query.standIn
  by_cases hs : q.starred = true
  · rw [if_pos hs]
    rcases StarMemo.remember_cases threshold bound q.memo with ⟨entry, -, heq, hr⟩ | ⟨hr, -⟩
    · simp only [hr, heq]
    · simp only [hr, Expr.equiv_self_of_column hb]
  · rw [if_neg hs]
    simp only
    rcases hf : q.projection.find? (·.equiv bound) with _ | slot
    · rw [hf]; exact Expr.equiv_self_of_column hb
    · rw [hf]; simpa using List.find?_some hf

/-- Once a column has been exposed it stays so: what is shown is the first slot for it, or what the
wildcard has for it. -/
theorem exposes_expose (hm : q.memo.Consistent) (hb : bound.unnamed.isColumn = true) (threshold : Nat) (name : String) :
    ∃ shown q', (q.standIn threshold bound).2.expose name (q.standIn threshold bound).1 =
      outcome q' (shown.lift name) ∧ q'.Exposes bound shown ∧ q'.tables = q.tables ∧ q'.name = q.name := by
  have he := equiv_standIn hb threshold q
  have hstands := standsFor_standIn hm hb threshold
  have htables : (q.standIn threshold bound).2.tables = q.tables ∧ (q.standIn threshold bound).2.name = q.name := by
    unfold Query.standIn; split <;> exact ⟨rfl, rfl⟩
  generalize q.standIn threshold bound = stand at he hstands htables
  rcases stand with ⟨e, r⟩
  simp only at he hstands htables
  unfold StandsFor at hstands
  -- Either the wildcard shows what stands for the column, or a slot does.
  by_cases hw : (r.starred && r.wildcardCovers e) = true
  · refine ⟨e, r, expose_eq (if_pos hw), ?_, htables⟩
    rw [Bool.and_eq_true] at hw
    rw [if_pos hw.1] at hstands
    rw [Exposes, if_pos hw.1]
    exact ⟨e, hstands, by rw [if_pos hw.2]⟩
  · refine ⟨(r.addSlot e).1, (r.addSlot e).2, expose_eq (if_neg hw), ?_, ?_⟩
    · have hfind := find?_addSlot (Expr.isColumn_of_equiv he hb) r
      simp only [Expr.equiv_congr_right he hb] at hfind
      obtain ⟨added, keys, heq⟩ := addSlot_eq e r
      rw [heq] at hfind ⊢
      unfold Exposes
      by_cases hs : r.starred = true
      · rw [if_pos hs] at hstands
        rw [hs, Bool.true_and] at hw
        rw [if_pos (by exact hs)]
        exact ⟨e, hstands, by rw [if_neg (by exact hw)]; exact hfind⟩
      · rw [if_neg (by exact hs)]
        exact hfind
    · obtain ⟨added, keys, heq⟩ := addSlot_eq e r
      rw [heq]
      exact htables

/-! ## Growth -/

theorem Grows.slots_prefix (h : q.Grows q') : q.projection <+: q'.projection := by
  induction h with
  | refl _ => exact List.prefix_refl _
  | trans _ _ h h' => exact h.trans h'
  | slot q _ =>
    rename_i e _
    obtain ⟨added, keys, heq⟩ := addSlot_eq e q
    rw [heq]; exact List.prefix_append _ _
  | memo _ _ _ | table _ _ _ _ => exact List.prefix_refl _

theorem Grows.memo_prefix (h : q.Grows q') : q.memo.entries <+: q'.memo.entries := by
  induction h with
  | refl _ => exact List.prefix_refl _
  | trans _ _ h h' => exact h.trans h'
  | slot q _ =>
    rename_i e _
    obtain ⟨added, keys, heq⟩ := addSlot_eq e q
    rw [heq]
  | memo q threshold _ =>
    rcases StarMemo.remember_cases threshold _ q.memo with ⟨entry, -, -, heq⟩ | ⟨-, heq⟩
    · rw [heq]
    · rw [heq]; exact List.prefix_append _ _
  | table _ _ _ _ => exact List.prefix_refl _

/-- First entries and first slots stay the first. -/
theorem Exposes.grows (h : q.Exposes bound shown) (hg : q.Grows q') : q'.Exposes bound shown := by
  have hext := hg.extended
  have hcovers (e : Expr) : q'.wildcardCovers e = q.wildcardCovers e := by
    unfold wildcardCovers
    rw [hext.wildcardTable]
  unfold Exposes at h ⊢
  rw [hext.starred]
  by_cases hs : q.starred = true
  · rw [if_pos hs] at h ⊢
    obtain ⟨e, hfind, h⟩ := h
    refine ⟨e, hg.memo_prefix.find?_eq_some hfind, ?_⟩
    rw [hcovers]
    by_cases hw : q.wildcardCovers e = true
    · rw [if_pos hw] at h ⊢; exact h
    · rw [if_neg hw] at h ⊢; exact hg.slots_prefix.find?_eq_some h
  · rw [if_neg hs] at h ⊢
    exact hg.slots_prefix.find?_eq_some h

end Query

/-! ## Answers that are settled -/

section Settled

variable (column : String) (type : DataType) (source : Source)

/-- Binds a column in a nested query, which is listed as `name`, and exposes it. -/
def Query.bindBelow (threshold : Nat) (name : String) (q : Query) : EStateM.Result Error Query Expr :=
  match q.bind threshold column type source with
  | .ok e q => q.expose name e
  | .error err q => .error err q

theorem Table.bind_nested (threshold : Nat) {q : Query} {name : String} (h : q.name = some name) :
    (nested q).bind threshold column type source =
      mapState .nested (q.bindBelow column type source threshold name) := by
  rw [Table.bind]
  simp only [h]
  rfl

mutual

/-- Once the column has been bound in the table: `r` is the answer, and nothing is missing for it. -/
def Table.Settled (r : Except Error Expr) : Table → Prop
  | .base _ _ name own => r = .ok (.column name own column type)
  | .join _ target _ => target.Settled r
  | .nested q =>
    match q.name with
    | none => r = .error .unnamedQuery
    | some name => q.SettledBelow name r

/-- The same for a nested query that is listed as `name`. -/
def Query.SettledBelow (name : String) (r : Except Error Expr) : Query → Prop
  | q@{ tables, .. } =>
    (∃ err, FirstSettled (.error err) tables ∧ r = .error err) ∨
      ∃ bound shown, FirstSettled (.ok bound) tables ∧ q.Exposes bound shown ∧ r = shown.lift name

/-- The same for the first table that satisfies the source. -/
def FirstSettled (r : Except Error Expr) : List Table → Prop
  | [] => r = .error (.unknownSource source)
  | t :: ts => if t.serves source then t.Settled r else FirstSettled r ts

end

variable {column type source}

theorem Query.settledBelow_iff {name : String} {r : Except Error Expr} {q : Query} :
    q.SettledBelow column type source name r ↔
      (∃ err, FirstSettled column type source (.error err) q.tables ∧ r = .error err) ∨
        ∃ bound shown, FirstSettled column type source (.ok bound) q.tables ∧ q.Exposes bound shown ∧
          r = shown.lift name := by
  cases q; rw [Query.SettledBelow]

/-! ### Settled answers are given -/

mutual

theorem Table.Settled.isColumn : ∀ {t : Table} {e : Expr}, t.Settled column type source (.ok e) → e.isColumn = true
  | .base .., e, h => by
    rw [Table.Settled] at h
    cases h
    rfl
  | .join _ target _, e, h => by
    rw [Table.Settled] at h
    exact Table.Settled.isColumn (t := target) h
  | .nested q, e, h => by
    rw [Table.Settled] at h
    rcases hn : q.name with _ | name
    · simp only [hn] at h; cases h
    · simp only [hn] at h
      rcases Query.settledBelow_iff.1 h with ⟨err, -, h⟩ | ⟨bound, shown, -, -, h⟩
      · cases h
      · obtain ⟨n, -, rfl⟩ := Query.lift_ok h.symm
        rfl

theorem FirstSettled.isColumn : ∀ {ts : List Table} {e : Expr}, FirstSettled column type source (.ok e) ts →
    e.isColumn = true
  | [], e, h => by
    rw [FirstSettled] at h
    cases h
  | t :: ts, e, h => by
    rw [FirstSettled] at h
    by_cases hs : t.serves source = true
    · rw [if_pos hs] at h
      exact Table.Settled.isColumn (t := t) h
    · rw [if_neg hs] at h
      exact FirstSettled.isColumn h

end

theorem Expr.unnamed_isColumn_of_settled {ts : List Table} {e : Expr} (h : FirstSettled column type source (.ok e) ts) :
    e.unnamed.isColumn = true :=
  Expr.isColumn_unnamed h.isColumn

variable (threshold : Nat)

mutual

theorem Table.Settled.bind : ∀ {t : Table} {r : Except Error Expr}, (∀ x, t.query? = some x → x.Consistent) →
    t.Settled column type source r → t.bind threshold column type source = outcome t r
  | .base .., r, _, h => by
    rw [Table.Settled] at h
    rw [h]; rfl
  | .join kind target condition, r, hq, h => by
    rw [Table.Settled] at h
    rw [Table.bind, Table.Settled.bind (t := target) hq h, mapState_outcome]
  | .nested q, r, hq, h => by
    rw [Table.Settled] at h
    rcases hn : q.name with _ | name
    · simp only [hn] at h
      rw [Table.bind]
      simp only [hn, h]
      rfl
    · simp only [hn] at h
      rw [Table.bind_nested column type source threshold hn, Query.SettledBelow.bind (q := q) (hq q rfl) h,
        mapState_outcome]

theorem Query.SettledBelow.bind : ∀ {q : Query} {name : String} {r : Except Error Expr}, q.Consistent →
    q.SettledBelow column type source name r → q.bindBelow column type source threshold name = outcome q r
  | ⟨tables, p, w, o, l, f, d, a, s, c, m, ms⟩, name, r, hq, h => by
    have hfirst {r : Except Error Expr} (h : FirstSettled column type source r tables) :=
      FirstSettled.bind (fun t ht x hx => hq.nested ht hx) h
    rw [Query.bindBelow, Query.bind]
    rcases Query.settledBelow_iff.1 h with ⟨err, hset, rfl⟩ | ⟨bound, shown, hset, hexposes, rfl⟩
    · rw [hfirst hset]; rfl
    · rw [hfirst hset]
      exact hexposes.expose hq.1 (Expr.unnamed_isColumn_of_settled hset) threshold name

theorem FirstSettled.bind : ∀ {ts : List Table} {r : Except Error Expr},
    (∀ t ∈ ts, ∀ x, t.query? = some x → x.Consistent) → FirstSettled column type source r ts →
      bindFirst threshold column type source ts = outcome ts r
  | [], r, _, h => by
    rw [FirstSettled] at h
    rw [h]; rfl
  | t :: ts, r, hq, h => by
    rw [FirstSettled] at h
    rw [bindFirst]
    by_cases hs : t.serves source = true
    · rw [if_pos hs] at h ⊢
      rw [Table.Settled.bind (t := t) (hq t (List.mem_cons_self ..)) h, mapState_outcome]
    · rw [if_neg hs] at h ⊢
      rw [FirstSettled.bind (fun t ht => hq t (List.mem_cons_of_mem _ ht)) h, mapState_outcome]

end

end Settled

/-! ### Growth keeps answers settled -/

section Growth

variable {column : String} {type : DataType} {source : Source}

theorem Table.serves_of_query? {s : Source} : ∀ {t : Table} {x : Query}, t.query? = some x → t.serves s = x.serves s
  | .base .., _, h => by cases h
  | .join _ target _, _, h => by rw [Table.serves]; exact serves_of_query? (t := target) h
  | .nested _, _, h => by cases h; rw [Table.serves]

theorem any_set {α : Type} {p : α → Bool} {a b : α} (h : p b = p a) : ∀ {as : List α} {i : Nat}, as[i]? = some a →
    (as.set i b).any p = as.any p
  | [], _, hi => by cases hi
  | _ :: as, 0, hi => by cases hi; rw [List.set_cons_zero, List.any_cons, List.any_cons, h]
  | _ :: as, i + 1, hi => by
    have hrest : (as.set i b).any p = as.any p := any_set h hi
    rw [List.set_cons_succ, List.any_cons, List.any_cons, hrest]

/-- The sources that a query satisfies do not depend on slots and memos. -/
theorem Query.Grows.serves {q q' : Query} (h : q.Grows q') (s : Source) : q'.serves s = q.serves s := by
  induction h with
  | refl _ => rfl
  | trans _ _ h h' => exact h'.trans h
  | slot q _ =>
    rename_i e _
    obtain ⟨added, keys, heq⟩ := addSlot_eq e q
    rw [heq, serves_eq_any, serves_eq_any]
  | memo q _ _ => rw [serves_eq_any, serves_eq_any]
  | @table q c c' t i hi hc _ ih =>
    rw [serves_eq_any, serves_eq_any]
    refine any_set ?_ hi
    rw [Table.serves_of_query? (Table.query?_withUnjoined hc), Table.serves_of_query? hc, ih]

theorem Table.Grows.serves {t t' : Table} (h : t.Grows t') (s : Source) : t'.serves s = t.serves s := by
  cases h with
  | same => rfl
  | nested hc hg =>
    rw [Table.serves_of_query? (Table.query?_withUnjoined hc), Table.serves_of_query? hc, hg.serves]

theorem FirstSettled.set {r : Except Error Expr} {t t' : Table} (hserves : t'.serves source = t.serves source)
    (hset : ∀ r, t.Settled column type source r → t'.Settled column type source r) : ∀ {ts : List Table} {i : Nat},
    ts[i]? = some t → FirstSettled column type source r ts → FirstSettled column type source r (ts.set i t')
  | [], _, hi, _ => by cases hi
  | u :: ts, 0, hi, h => by
    cases hi
    rw [FirstSettled] at h
    rw [List.set_cons_zero, FirstSettled, hserves]
    by_cases hs : t.serves source = true
    · rw [if_pos hs] at h ⊢; exact hset r h
    · rw [if_neg hs] at h ⊢; exact h
  | u :: ts, i + 1, hi, h => by
    rw [FirstSettled] at h
    rw [List.set_cons_succ, FirstSettled]
    by_cases hs : u.serves source = true
    · rw [if_pos hs] at h ⊢; exact h
    · rw [if_neg hs] at h ⊢; exact FirstSettled.set hserves hset hi h

theorem Table.Settled.withUnjoined {c c' : Query} (hname : c'.name = c.name)
    (h : ∀ name r, c.SettledBelow column type source name r → c'.SettledBelow column type source name r) :
    ∀ {t : Table} {r : Except Error Expr}, t.query? = some c → t.Settled column type source r →
      (t.withUnjoined (.nested c')).Settled column type source r
  | .base .., _, hc, _ => by cases hc
  | .join _ target _, r, hc, ht => by
    rw [Table.Settled] at ht
    rw [Table.withUnjoined, Table.Settled]
    exact Table.Settled.withUnjoined hname h (t := target) hc ht
  | .nested q, r, hc, ht => by
    cases hc
    rw [Table.Settled] at ht
    rw [Table.withUnjoined, Table.Settled, hname]
    · rcases hn : c.name with _ | name
      · simp only [hn] at ht ⊢; exact ht
      · simp only [hn] at ht ⊢; exact h name r ht
    · simp

namespace Query

/-- An answer that is settled in the tables of a query stays so in all that the query grows to. -/
theorem Grows.firstSettled {q q' : Query} (h : q.Grows q') : ∀ {r : Except Error Expr},
    FirstSettled column type source r q.tables → FirstSettled column type source r q'.tables := by
  induction h with
  | refl _ => exact id
  | trans _ _ h h' => exact fun hr => h' (h hr)
  | slot q _ =>
    rename_i e _
    obtain ⟨added, keys, heq⟩ := addSlot_eq e q
    rw [heq]; exact id
  | memo _ _ _ => exact id
  | @table q c c' t i hi hc hg ih =>
    intro r hr
    refine FirstSettled.set ?_ (fun r ht => ?_) hi hr
    · rw [Table.serves_of_query? (Table.query?_withUnjoined hc), Table.serves_of_query? hc, hg.serves]
    · refine Table.Settled.withUnjoined hg.name (fun name r hset => ?_) hc ht
      rw [settledBelow_iff] at hset ⊢
      rcases hset with ⟨err, hset, heq⟩ | ⟨bound, shown, hset, hexposes, heq⟩
      · exact .inl ⟨err, ih hset, heq⟩
      · exact .inr ⟨bound, shown, ih hset, hexposes.grows hg, heq⟩

end Query
end Growth

/-! ### Binding settles answers -/

section Bind

variable {column : String} {type : DataType} {source : Source} (threshold : Nat)

theorem Query.settledBelow_of_tables {q : Query} {name : String} (hq : q.Consistent)
    (ht : ∃ ts r, bindFirst threshold column type source q.tables = outcome ts r ∧
      FirstSettled column type source r ts) :
    ∃ q' r, q.bindBelow column type source threshold name = outcome q' r ∧
      q'.SettledBelow column type source name r ∧ q'.name = q.name := by
  obtain ⟨ts, r, hb, hset⟩ := ht
  rw [bindBelow, bind_eq, hb]
  rcases r with err | bound
  · refine ⟨{ q with tables := ts }, .error err, rfl, ?_, rfl⟩
    rw [settledBelow_iff]
    exact .inl ⟨err, hset, rfl⟩
  · obtain ⟨shown, q', hexpose, hexposes, htables, hname⟩ :=
      exposes_expose (q := { q with tables := ts }) hq.1 (Expr.unnamed_isColumn_of_settled hset) threshold name
    refine ⟨q', shown.lift name, hexpose, ?_, hname⟩
    rw [settledBelow_iff]
    exact .inr ⟨bound, shown, by rw [htables]; exact hset, hexposes, rfl⟩

mutual

theorem Table.settled_bind : ∀ t : Table, (∀ x, t.query? = some x → x.Consistent) →
    ∃ t' r, t.bind threshold column type source = outcome t' r ∧ t'.Settled column type source r
  | .base table schema name own, _ =>
    ⟨.base table schema name own, .ok (.column name own column type), rfl, by rw [Table.Settled]⟩
  | .join kind target condition, hq => by
    obtain ⟨target', r, hb, hset⟩ := Table.settled_bind target hq
    exact ⟨.join kind target' condition, r, by rw [Table.bind, hb, mapState_outcome], by rw [Table.Settled]; exact hset⟩
  | .nested q, hq => by
    rcases hn : q.name with _ | name
    · refine ⟨.nested q, .error .unnamedQuery, ?_, ?_⟩
      · rw [Table.bind]
        simp only [hn]
        rfl
      · rw [Table.Settled]
        simp only [hn]
    · obtain ⟨q', r, hb, hset, hname⟩ := Query.settledBelow_bindBelow q name (hq q rfl)
      refine ⟨.nested q', r, ?_, ?_⟩
      · rw [Table.bind_nested column type source threshold hn, hb, mapState_outcome]
      · rw [Table.Settled]
        simp only [hname, hn]
        exact hset

theorem Query.settledBelow_bindBelow : ∀ (q : Query) (name : String), q.Consistent →
    ∃ q' r, q.bindBelow column type source threshold name = outcome q' r ∧
      q'.SettledBelow column type source name r ∧ q'.name = q.name
  | ⟨tables, p, w, o, l, f, d, a, s, c, m, ms⟩, _, hq =>
    Query.settledBelow_of_tables threshold hq <|
      firstSettled_bindFirst tables fun _ ht _ hx => hq.nested (q := ⟨tables, p, w, o, l, f, d, a, s, c, m, ms⟩) ht hx

theorem firstSettled_bindFirst : ∀ ts : List Table, (∀ t ∈ ts, ∀ x, t.query? = some x → x.Consistent) →
    ∃ ts' r, bindFirst threshold column type source ts = outcome ts' r ∧ FirstSettled column type source r ts'
  | [], _ => ⟨[], .error (.unknownSource source), rfl, by rw [FirstSettled]⟩
  | t :: ts, hq => by
    rw [bindFirst]
    by_cases hs : t.serves source = true
    · obtain ⟨t', r, hb, hset⟩ := Table.settled_bind t (hq t (List.mem_cons_self ..))
      have hserves := (Table.grows_bind threshold column type source t).1.serves source
      have hstate : stateOf (outcome t' r) = t' := by cases r <;> rfl
      rw [hb, hstate, hs] at hserves
      refine ⟨t' :: ts, r, by rw [if_pos hs, hb, mapState_outcome], ?_⟩
      rw [FirstSettled, if_pos hserves]
      exact hset
    · obtain ⟨ts', r, hb, hset⟩ := firstSettled_bindFirst ts fun t ht => hq t (List.mem_cons_of_mem _ ht)
      refine ⟨t :: ts', r, by rw [if_neg hs, hb, mapState_outcome], ?_⟩
      rw [FirstSettled, if_neg hs]
      exact hset

end

end Bind

/-! ## Requests -/

namespace Query

section Requests

variable (column : String) (type : DataType) (source : Source)

/-- Once the column has been requested of the query: `r` is the answer, and nothing is missing for it. -/
def Decided (r : Except Error Expr) (q : Query) : Prop :=
  (∃ err, FirstSettled column type source (.error err) q.tables ∧ r = .error err) ∨
    ∃ bound e, FirstSettled column type source (.ok bound) q.tables ∧ q.StandsFor bound e ∧ r = .ok e

variable {column type source} {q q' : Query} {r : Except Error Expr}

theorem Decided.bind (hq : q.Consistent) (h : q.Decided column type source r) (threshold : Nat) :
    q.bind threshold column type source = outcome q r := by
  have hfirst {r : Except Error Expr} (h : FirstSettled column type source r q.tables) :=
    FirstSettled.bind threshold (fun t ht x hx => hq.nested ht hx) h
  rw [bind_eq]
  rcases h with ⟨err, hset, rfl⟩ | ⟨bound, e, hset, hstands, rfl⟩
  · rw [hfirst hset]
    cases q; rfl
  · rw [hfirst hset]
    have hstand := hstands.standIn hq.1 threshold
    cases q
    exact congrArg (fun s : Expr × Query => EStateM.Result.ok s.1 s.2) hstand

theorem decided_bind (hq : q.Consistent) (threshold : Nat) :
    ∃ q' r, q.bind threshold column type source = outcome q' r ∧ q'.Decided column type source r := by
  obtain ⟨ts, r, hb, hset⟩ := firstSettled_bindFirst threshold
    q.tables fun t ht x hx => hq.nested ht hx
  rw [bind_eq, hb]
  rcases r with err | bound
  · exact ⟨{ q with tables := ts }, .error err, rfl, .inl ⟨err, hset, rfl⟩⟩
  · have hstands :=
      standsFor_standIn (q := { q with tables := ts }) hq.1 (Expr.unnamed_isColumn_of_settled hset) threshold
    have htables : (standIn threshold bound { q with tables := ts }).2.tables = ts := by
      unfold standIn; split <;> rfl
    refine ⟨_, .ok _, rfl, .inr ⟨bound, _, ?_, hstands, rfl⟩⟩
    rw [htables]
    exact hset

/-- A query gains no slots from columns that are requested of it itself. -/
theorem projection_resolveColumn (settings : Settings) (column : String) (type : DataType) (source : Source)
    (q : Query) : (stateOf (resolveColumn settings column type source q)).projection = q.projection := by
  unfold resolveColumn
  split
  · rfl
  · rw [bind_eq]
    rcases bindFirst settings.indexThreshold column type source q.tables with ⟨bound, ts⟩ | ⟨err, ts⟩
    · show (standIn settings.indexThreshold bound { q with tables := ts }).2.projection = q.projection
      unfold standIn
      split <;> rfl
    · rfl

theorem Requested.projection (h : q.Requested q') : q'.projection = q.projection := by
  induction h with
  | refl => rfl
  | column settings column type source _ ih => rw [projection_resolveColumn, ih]
  | property settings properties property source _ ih =>
    unfold resolveProperty
    rcases properties.column? property source with _ | ⟨column, type⟩
    · exact ih
    · simp only [projection_resolveColumn, ih]

/-- What is requested later on changes nothing in an answer given. -/
theorem Decided.requested (h : q.Decided column type source r) (hr : q.Requested q') :
    q'.Decided column type source r := by
  have hg := hr.grows
  rcases h with ⟨err, hset, heq⟩ | ⟨bound, e, hset, hstands, heq⟩
  · exact .inl ⟨err, hg.firstSettled hset, heq⟩
  · refine .inr ⟨bound, e, hg.firstSettled hset, ?_, heq⟩
    unfold StandsFor at hstands ⊢
    rw [hg.extended.starred, hr.projection]
    by_cases hs : q.starred = true
    · rw [if_pos hs] at hstands ⊢
      exact hg.memo_prefix.find?_eq_some hstands
    · rw [if_neg hs] at hstands ⊢
      exact hstands

/-- A column that has been requested before, of this query, is answered as it was then, however many
others have been requested since, and the whole tree stays as it is. -/
theorem resolveColumn_again {p r : Query} (hq : q.Consistent) (hp : q.Requested p) (settings settings' : Settings)
    (column : String) (type : DataType) (source : Source)
    (hr : (stateOf (resolveColumn settings column type source p)).Requested r) :
    resolveColumn settings' column type source r =
      mapState (fun _ => r) (resolveColumn settings column type source p) := by
  have hpc : p.Consistent := hp.grows.consistent hq
  have hrc : r.Consistent := hr.grows.consistent ((p.grows_resolveColumn settings column type source).consistent hpc)
  unfold resolveColumn at hr ⊢
  by_cases hc : column.isEmpty = true
  · rw [if_pos hc, if_pos hc]
    rfl
  · rw [if_neg hc] at hr
    rw [if_neg hc, if_neg hc]
    obtain ⟨p', answer, hb, hdecided⟩ := decided_bind hpc
      settings.indexThreshold
    have hstate : stateOf (outcome p' answer) = p' := by cases answer <;> rfl
    rw [hb, hstate] at hr
    rw [hb, (hdecided.requested hr).bind hrc, mapState_outcome]

end Requests

/-- Identifiers of three tables: the one that is asked for again has had to take another name, and since
then a memo has been indexed and a request has failed. -/
theorem resolveColumn_again_renamed :
    let n : Query := {
      tables := [.base "People" none "p" (some ⟨1⟩), .base "Orders" none "o" (some ⟨2⟩),
        .base "Items" none "i" (some ⟨3⟩)]
      name := some "t"
      starred := true
      wildcardChoice := some "p" }
    let q : Query := { tables := [.nested n] }
    let p := stateOf (resolveColumn {} "Id" .int32 ⟨2⟩ q)
    let first := resolveColumn {} "Id" .int32 ⟨3⟩ p
    let r := stateOf (resolveColumn {} "Id" .int32 ⟨4⟩
      (stateOf (resolveColumn { indexThreshold := 0 } "Id" .int32 ⟨1⟩ (stateOf first))))
    q.Consistent ∧ q.Requested p ∧ (stateOf first).Requested r ∧
      (∃ e, first = .ok e (stateOf first) ∧ e.address = some ("t", "Id0")) ∧
      resolveColumn { indexThreshold := 1 } "Id" .int32 ⟨3⟩ r = mapState (fun _ => r) first := by
  intro n q p first r
  have hq : q.Consistent := consistent_unindexed { tables := [.nested n] }
  have hp : q.Requested p := .column {} "Id" .int32 ⟨2⟩ .refl
  have hr : (stateOf first).Requested r :=
    .column {} "Id" .int32 ⟨4⟩ (.column { indexThreshold := 0 } "Id" .int32 ⟨1⟩ .refl)
  obtain ⟨e, hfirst, ha⟩ := exists_of_given? (r := first) (p := (·.address == some ("t", "Id0"))) (by decide +kernel)
  exact ⟨hq, hp, hr, ⟨e, hfirst, eq_of_beq ha⟩, resolveColumn_again hq hp {} { indexThreshold := 1 } "Id" .int32 ⟨3⟩ hr⟩

end Query
end QueryTree
