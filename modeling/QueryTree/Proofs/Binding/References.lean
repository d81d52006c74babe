/-
What the references that binding hands out stand for. A reference to an output of a nested query leads
through a slot of that name, or through the wildcard, to a column of one of the tables there, and so in
the end to a column of a base table. As slots have names that differ, no reference leads to two columns,
as long as no slot has come to share its name with a column of the wildcard.
-/
import QueryTree.Proofs.Composed

namespace QueryTree

/-! ## Addresses -/

namespace Expr

/-- The table or nested query that a column belongs to and its name there, whatever it is called. -/
def address (e : Expr) : Option (String × String) :=
  match e.unnamed with
  | column table _ name _ | output table name _ => some (table, name)
  | _ => none

theorem address_congr {a b : Expr} (h : a.unnamed = b.unnamed) : a.address = b.address := by
  rw [address, address, h]

/-- Columns that are structurally equal have one address. -/
theorem address_of_equiv {a b : Expr} (h : a.equiv b = true) : a.address = b.address := by
  rw [← unnamed_equiv] at h
  have ha := isNamed_unnamed a
  rw [address, address]
  generalize a.unnamed = u at h ha ⊢
  cases u with
  | named => cases ha
  | column | output =>
    rw [equiv] at h
    split at h
    · rename_i heq
      simp only [Bool.and_eq_true, beq_iff_eq] at h
      rw [heq, h.1.1, h.1.2]
    · cases h
  | _ =>
    rw [equiv] at h
    split at h
    · rename_i heq; rw [heq]
    · cases h

theorem owner_unnamed (e : Expr) : e.unnamed.owner = e.address.map Prod.fst := by
  rw [address]; cases e.unnamed <;> rfl

theorem outputName_of_isColumn {e : Expr} {a : String × String} (hc : e.isColumn = true) (ha : e.address = some a) :
    e.outputName = some a.2 := by
  cases e with
  | column | output => cases ha; rfl
  | _ => cases hc

theorem stripCasts_of_address {e : Expr} {a : String × String} (h : e.address = some a) : e.stripCasts = e := by
  cases e with
  | cast => cases h
  | _ => rfl

end Expr

/-! ## Columns of base tables -/

namespace Query

/-- The column of a base table, known by its query source, that an address leads to. -/
inductive Denotes : Query → String × String → Source × String → Prop
  | base {q : Query} {t : Table} {table : String} {schema : Option String} {own column : String} {s : Source} :
      t ∈ q.tables → t.unjoined = .base table schema own (some s) → Denotes q (own, column) (s, column)
  | slot {q x : Query} {t : Table} {own name : String} {slot : Expr} {a : String × String} {b : Source × String} :
      t ∈ q.tables → t.query? = some x → x.name = some own → slot ∈ x.projection → slot.outputName = some name →
      slot.address = some a → (x.starred = true → x.wildcardTable ≠ some a.1) → Denotes x a b → Denotes q (own, name) b
  | wildcard {q x : Query} {t : Table} {own w name : String} {entry : Expr} {b : Source × String} :
      t ∈ q.tables → t.query? = some x → x.name = some own → x.starred = true → x.wildcardTable = some w →
      entry ∈ x.memo.entries → entry.address = some (w, name) → Denotes x (w, name) b → Denotes q (own, name) b

variable {q r x : Query} {t : Table} {a : String × String} {b b' : Source × String}

theorem Denotes.table (h : q.Denotes a b) : ∃ t ∈ q.tables, t.name = some a.1 := by
  cases h with
  | base ht hu => exact ⟨_, ht, by rw [← Table.name_unjoined, hu]; rfl⟩
  | slot ht hx hn | wildcard ht hx hn => exact ⟨_, ht, (Table.name_of_query? hx).trans hn⟩

/-- Tables alone count. -/
theorem Denotes.mono (ht : q.tables ⊆ r.tables) (h : q.Denotes a b) : r.Denotes a b := by
  cases h with
  | base hm hu => exact .base (ht hm) hu
  | slot hm hx hn hs hname ha hw hd => exact .slot (ht hm) hx hn hs hname ha hw hd
  | wildcard hm hx hn hs hw he ha hd => exact .wildcard (ht hm) hx hn hs hw he ha hd

/-! ## Growth -/

/-- What growth leaves alone and what it adds to. -/
structure Extended (q q' : Query) : Prop where
  name : q'.name = q.name
  starred : q'.starred = q.starred
  choice : q'.wildcardChoice = q.wildcardChoice
  tables : q'.tables.map Table.name = q.tables.map Table.name
  slots : q.projection ⊆ q'.projection
  memo : q.memo.entries ⊆ q'.memo.entries

theorem addSlot_eq (e : Expr) (q : Query) : ∃ added keys,
    (q.addSlot e).2 = { q with projection := q.projection ++ added, orderBy := keys } := by
  obtain ⟨added, hg, -⟩ := addSlot_spec e q
  exact ⟨added, _, hg.eq⟩

theorem Grows.extended {q' : Query} (h : q.Grows q') : q.Extended q' := by
  induction h with
  | refl q => exact ⟨rfl, rfl, rfl, rfl, List.Subset.refl _, List.Subset.refl _⟩
  | trans _ _ h h' =>
    exact ⟨h'.name.trans h.name, h'.starred.trans h.starred, h'.choice.trans h.choice, h'.tables.trans h.tables,
      List.Subset.trans h.slots h'.slots, List.Subset.trans h.memo h'.memo⟩
  | slot q _ =>
    rename_i e _
    obtain ⟨added, keys, heq⟩ := addSlot_eq e q
    rw [heq]
    exact ⟨rfl, rfl, rfl, rfl, List.subset_append_left _ _, List.Subset.refl _⟩
  | memo q threshold he =>
    refine ⟨rfl, rfl, rfl, rfl, List.Subset.refl _, ?_⟩
    rcases StarMemo.remember_cases threshold _ q.memo with ⟨entry, -, -, heq⟩ | ⟨-, heq⟩
    · rw [heq]; exact List.Subset.refl _
    · rw [heq]; exact List.subset_append_left _ _
  | @table q c c' t i hi hc _ ih =>
    refine ⟨rfl, rfl, rfl, ?_, List.Subset.refl _, List.Subset.refl _⟩
    have hname : (t.withUnjoined (.nested c')).name = t.name := by
      rw [Table.name_of_query? (Table.query?_withUnjoined hc), Table.name_of_query? hc, ih.name]
    obtain ⟨hlt, heq⟩ := List.getElem?_eq_some_iff.1 hi
    rw [List.map_set, hname, ← heq, ← List.getElem_map Table.name (h := by simpa using hlt), List.set_getElem_self]

theorem Extended.wildcardTable {q' : Query} (h : q.Extended q') : q'.wildcardTable = q.wildcardTable :=
  wildcardTable_congr h.choice h.tables

/-- A reference goes on to lead to its column. -/
theorem Grows.denotes {q' : Query} (h : q.Grows q') : q.Denotes a b → q'.Denotes a b := by
  induction h generalizing a b with
  | refl _ => exact id
  | trans _ _ h h' => exact h' ∘ h
  | slot q _ =>
    rename_i e _
    obtain ⟨added, keys, heq⟩ := addSlot_eq e q
    rw [heq]; exact .mono (List.Subset.refl _)
  | memo q _ _ => exact .mono (List.Subset.refl _)
  | @table q c c' t i hi hc hg ih =>
    intro hd
    have hext := hg.extended
    obtain ⟨hlt, hti⟩ := List.getElem?_eq_some_iff.1 hi
    -- The table at `i` holds `c'` from now on, which has kept all that `c` had; the others stay.
    have hnew : t.withUnjoined (.nested c') ∈ q.tables.set i (t.withUnjoined (.nested c')) := List.mem_set hlt _
    have hother {u : Table} (hu : u ∈ q.tables) : u = t ∨ u ∈ q.tables.set i (t.withUnjoined (.nested c')) := by
      obtain ⟨j, hj, rfl⟩ := List.mem_iff_getElem.1 hu
      by_cases hij : i = j
      · subst hij; exact .inl hti
      · exact .inr (List.mem_iff_getElem.2 ⟨j, by simpa using hj, List.getElem_set_of_ne hij _ _⟩)
    cases hd with
    | base hu heq =>
      rcases hother hu with rfl | hu
      · rw [Table.unjoined_of_query? hc] at heq; cases heq
      · exact .base hu heq
    | slot hu hx hn hs hname ha hw hd =>
      rcases hother hu with rfl | hu
      · cases Option.some.inj (hx.symm.trans hc)
        exact .slot hnew (Table.query?_withUnjoined hc) (hext.name.trans hn) (hext.slots hs) hname ha
          (by rw [hext.starred, hext.wildcardTable]; exact hw) (ih hd)
      · exact .slot hu hx hn hs hname ha hw hd
    | wildcard hu hx hn hs hw he ha hd =>
      rcases hother hu with rfl | hu
      · cases Option.some.inj (hx.symm.trans hc)
        exact .wildcard hnew (Table.query?_withUnjoined hc) (hext.name.trans hn) (hext.starred.trans hs)
          (hext.wildcardTable.trans hw) (hext.memo he) ha (ih hd)
      · exact .wildcard hu hx hn hs hw he ha hd

/-! ## Nested queries -/

/-- `x` is nested in the tables of a query, at whatever depth. -/
inductive Nested (x : Query) : Query → Prop
  | table {q : Query} {t : Table} : t ∈ q.tables → t.query? = some x → Nested x q
  | deeper {q c : Query} {t : Table} : t ∈ q.tables → t.query? = some c → Nested x c → Nested x q

theorem mem_children_of_table {c : Query} (ht : t ∈ q.tables) (hc : t.query? = some c) : c ∈ q.children :=
  List.mem_append_left _ (List.mem_flatMap.2 ⟨t, ht, Table.mem_children_of_query? hc⟩)

theorem Nested.mem_subqueries (h : x.Nested q) : x ∈ q.subqueries := by
  induction h with
  | @table q _ ht hx =>
    rw [subqueries_eq_flatMap]
    exact List.mem_flatMap.2 ⟨x, mem_children_of_table ht hx, self_mem_queries x⟩
  | @deeper q c _ ht hc _ ih =>
    rw [subqueries_eq_flatMap]
    exact List.mem_flatMap.2 ⟨c, mem_children_of_table ht hc, by rw [queries_eq]; exact List.mem_cons_of_mem _ ih⟩

theorem Nested.within (h : x.Nested q) : x.Within q := by
  induction h with
  | table ht hx => exact .part (List.mem_append_left _ (List.mem_append_left _ (mem_children_of_table ht hx))) .root
  | deeper ht hc _ ih => exact .part (List.mem_append_left _ (List.mem_append_left _ (mem_children_of_table ht hc))) ih

theorem Nested.of_tables {q' : Query} (ht : q'.tables ⊆ q.tables) (h : x.Nested q') : x.Nested q := by
  cases h with
  | table hm hx => exact .table (ht hm) hx
  | deeper hm hc hx => exact .deeper (ht hm) hc hx

/-- What is nested in a query that has grown has grown from what was nested. -/
theorem Grows.nested {q' : Query} (h : q.Grows q') : ∀ {x' : Query}, x'.Nested q' →
    ∃ x : Query, x.Nested q ∧ x.Grows x' := by
  induction h with
  | refl _ => exact fun {x'} hx => ⟨x', hx, .refl x'⟩
  | trans _ _ h h' =>
    intro x'' hx
    obtain ⟨x', hx', hg'⟩ := h' hx
    obtain ⟨x, hx, hg⟩ := h hx'
    exact ⟨x, hx, hg.trans hg'⟩
  | slot q _ =>
    rename_i e _
    obtain ⟨added, keys, heq⟩ := addSlot_eq e q
    rw [heq]
    exact fun {x'} hx => ⟨x', .of_tables (by exact List.Subset.refl q.tables) hx, .refl x'⟩
  | memo q _ _ => exact fun {x'} hx => ⟨x', .of_tables (by exact List.Subset.refl q.tables) hx, .refl x'⟩
  | @table q c c' t i hi hc hg ih =>
    have ht := List.mem_of_getElem? hi
    intro x' hx
    cases hx with
    | table hu hx =>
      -- The table is another one, or the one in which the column has been bound.
      rcases List.mem_or_eq_of_mem_set hu with hu | rfl
      · exact ⟨x', .table hu hx, .refl x'⟩
      · rw [Table.query?_withUnjoined hc] at hx
        cases hx
        exact ⟨c, .table ht hc, hg⟩
    | deeper hu hd hx =>
      rcases List.mem_or_eq_of_mem_set hu with hu | rfl
      · exact ⟨x', .deeper hu hd hx, .refl x'⟩
      · rw [Table.query?_withUnjoined hc] at hd
        cases hd
        obtain ⟨x, hx, hgx⟩ := ih hx
        exact ⟨x, .deeper ht hc hx, hgx⟩

/-! ## References that lead to one column -/

/-- No two tables have the same name. -/
def TablesDiffer (q : Query) : Prop := (q.tables.filterMap Table.name).Nodup

/-- Beside a wildcard, no slot for a column of another table has the name of a column that is bound
through the wildcard. -/
def Apart (x : Query) : Prop :=
  x.starred = true → ∀ slot ∈ x.projection, ∀ a ∈ slot.address, (∃ t ∈ x.tables, t.name = some a.1) →
    x.wildcardTable ≠ some a.1 → ∀ entry ∈ x.memo.entries, ∀ b ∈ entry.address, x.wildcardTable = some b.1 →
      slot.outputName ≠ some b.2

instance (q : Query) : Decidable q.TablesDiffer := inferInstanceAs (Decidable (List.Nodup _))

instance (x : Query) : Decidable x.Apart := inferInstanceAs (Decidable (_ → ∀ _ ∈ _, _))

theorem eq_of_nodup_filterMap {α β : Type} {f : α → Option β} : ∀ {xs : List α} {x y : α} {b : β},
    (xs.filterMap f).Nodup → x ∈ xs → y ∈ xs → f x = some b → f y = some b → x = y
  | z :: zs, x, y, b, h, hx, hy, hfx, hfy => by
    have hrest : (zs.filterMap f).Nodup := h.sublist ((List.sublist_cons_self z zs).filterMap f)
    have hnot (hz : f z = some b) {u : α} (hu : u ∈ zs) (hfu : f u = some b) : False := by
      rw [List.filterMap_cons_some hz, List.nodup_cons] at h
      exact h.1 (List.mem_filterMap.2 ⟨u, hu, hfu⟩)
    rcases List.mem_cons.1 hx with hxz | hxs <;> rcases List.mem_cons.1 hy with hyz | hys
    · exact hxz.trans hyz.symm
    · exact (hnot (hxz ▸ hfx) hys hfy).elim
    · exact (hnot (hyz ▸ hfy) hxs hfx).elim
    · exact eq_of_nodup_filterMap hrest hxs hys hfx hfy

/-- Tables can be told apart by name, here and in all nested queries, and so can slots there, from each
other and from columns of the wildcard. -/
structure Unambiguous (q : Query) : Prop where
  tables : q.TablesDiffer
  nestedTables : ∀ x : Query, x.Nested q → x.TablesDiffer
  slots : ∀ x : Query, x.Nested q → x.name.isSome = true → SlotsNamed x.projection
  apart : ∀ x : Query, x.Nested q → x.Apart
  memos : ∀ x : Query, x.Nested q → ∀ e ∈ x.memo.entries, e.isColumn = true

theorem Unambiguous.nested (h : q.Unambiguous) (ht : t ∈ q.tables) (hx : t.query? = some x) : x.Unambiguous where
  tables := h.nestedTables x (.table ht hx)
  nestedTables y hy := h.nestedTables y (.deeper ht hx hy)
  slots y hy := h.slots y (.deeper ht hx hy)
  apart y hy := h.apart y (.deeper ht hx hy)
  memos y hy := h.memos y (.deeper ht hx hy)

/-- There is one table of a name. -/
theorem TablesDiffer.query?_eq {t' : Table} {x' : Query} {own : String} (h : q.TablesDiffer) (ht : t ∈ q.tables)
    (ht' : t' ∈ q.tables) (hx : t.query? = some x) (hx' : t'.query? = some x') (hn : x.name = some own)
    (hn' : x'.name = some own) : x' = x := by
  have heq : t = t' :=
    eq_of_nodup_filterMap h ht ht' ((Table.name_of_query? hx).trans hn) ((Table.name_of_query? hx').trans hn')
  exact Option.some.inj (hx'.symm.trans (heq ▸ hx))

theorem TablesDiffer.not_query? {t' : Table} {table own : String} {schema : Option String} {source : Option Source}
    (h : q.TablesDiffer) (ht : t ∈ q.tables) (ht' : t' ∈ q.tables) (hu : t.unjoined = .base table schema own source)
    (hx : t'.query? = some x) (hn : x.name = some own) : False := by
  have hname : t.name = some own := by rw [← Table.name_unjoined, hu]; rfl
  have heq : t = t' := eq_of_nodup_filterMap h ht ht' hname ((Table.name_of_query? hx).trans hn)
  rw [heq, Table.unjoined_of_query? hx] at hu
  cases hu

/-- No reference leads to two columns. -/
theorem Denotes.unique (h : q.Denotes a b) : q.Unambiguous → q.Denotes a b' → b = b' := by
  induction h generalizing b' with
  | base ht hu =>
    intro hq h'
    cases h' with
    | base ht' hu' =>
      have hname {t : Table} {table own : String} {schema : Option String} {s : Source}
          (hu : t.unjoined = .base table schema own (some s)) : t.name = some own := by
        rw [← Table.name_unjoined, hu]; rfl
      have heq := eq_of_nodup_filterMap hq.tables ht ht' (hname hu) (hname hu')
      rw [← heq, hu] at hu'
      cases hu'; rfl
    | slot ht' hx hn | wildcard ht' hx hn => exact (hq.tables.not_query? ht ht' hu hx hn).elim
  | slot ht hx hn hs hname ha hw hd ih =>
    intro hq h'
    have hnested := Nested.table ht hx
    cases h' with
    | base ht' hu => exact (hq.tables.not_query? ht' ht hu hx hn).elim
    | slot ht' hx' hn' hs' hname' ha' hw' hd' =>
      obtain rfl := hq.tables.query?_eq ht ht' hx hx' hn hn'
      -- Slots of one name are one slot.
      have hslots := (hq.slots _ hnested (by rw [hn]; rfl)).distinct.of_map
      obtain rfl := eq_of_nodup_filterMap hslots hs hs' hname hname'
      cases Option.some.inj (ha.symm.trans ha')
      exact ih (hq.nested ht hx) hd'
    | wildcard ht' hx' hn' hstar hw' he' ha' hd' =>
      -- A slot beside the wildcard has a name that no column of the wildcard has.
      obtain rfl := hq.tables.query?_eq ht ht' hx hx' hn hn'
      exact absurd hname (hq.apart _ hnested hstar _ hs _ ha hd.table (hw hstar) _ he' _ ha' hw')
  | wildcard ht hx hn hstar hw he ha hd ih =>
    intro hq h'
    have hnested := Nested.table ht hx
    cases h' with
    | base ht' hu => exact (hq.tables.not_query? ht' ht hu hx hn).elim
    | slot ht' hx' hn' hs' hname' ha' hw' hd' =>
      obtain rfl := hq.tables.query?_eq ht ht' hx hx' hn hn'
      exact absurd hname' (hq.apart _ hnested hstar _ hs' _ ha' hd'.table (hw' hstar) _ he _ ha hw)
    | wildcard ht' hx' hn' _ hw' _ _ hd' =>
      obtain rfl := hq.tables.query?_eq ht ht' hx hx' hn hn'
      cases Option.some.inj (hw.symm.trans hw')
      exact ih (hq.nested ht hx) hd'

end Query

/-! ## Binding -/

namespace Query

variable {q : Query} {a : String × String} {b : Source × String} {e : Expr}

theorem standIn_address (threshold : Nat) (he : e.address = some a) (q : Query) :
    (q.standIn threshold e).1.address = some a ∧
      (q.starred = true → (q.standIn threshold e).1 ∈ (q.standIn threshold e).2.memo.entries) := by
  unfold standIn
  split
  · rcases StarMemo.remember_cases threshold e q.memo with ⟨entry, hmem, heq, hr⟩ | ⟨hr, hentries⟩
    · simp only [hr]
      exact ⟨(Expr.address_of_equiv heq).trans he, fun _ => hmem⟩
    · simp only [hr, hentries]
      exact ⟨he, fun _ => List.mem_append_right _ (List.mem_singleton_self e)⟩
  · rename_i hs
    refine ⟨?_, fun h => absurd h hs⟩
    rcases hf : q.projection.find? (·.equiv e) with _ | slot
    · simpa [hf] using he
    · have hslot : slot.equiv e = true := by simpa using List.find?_some hf
      simpa [hf] using (Expr.address_of_equiv hslot).trans he

/-- The slot for a column leads to the column. -/
theorem addSlot_address (he : e.address = some a) (q : Query) :
    (q.addSlot e).1 ∈ (q.addSlot e).2.projection ∧ (q.addSlot e).1.address = some a := by
  simp only [addSlot, project, Bool.false_eq_true, if_false, Expr.stripCasts_of_address he]
  rcases hs : q.slotOf e with _ | i
  · obtain ⟨slot, keys, hun, heq, -⟩ := appendValue_spec e q
    simp only [heq]
    simpa using (Expr.address_congr hun).trans he
  · obtain ⟨slot, hi, heq⟩ := slotOf_eq_some hs
    simp only [List.getD_eq_getElem?_getD, hi, Option.getD_some]
    exact ⟨List.mem_of_getElem? hi, (Expr.address_of_equiv heq).trans he⟩

theorem wildcardCovers_iff (he : e.address = some a) (q : Query) :
    q.wildcardCovers e = true ↔ q.wildcardTable = some a.1 := by
  rw [wildcardCovers, Expr.owner_unnamed, he]
  simp

/-- What is exposed leads where the column does. -/
theorem expose_denotes {own : String} {e' : Expr} {q' : Query} (hn : q.name = some own) (he : e.address = some a)
    (hmemo : q.starred = true → e ∈ q.memo.entries ∧ e.isColumn = true) (hd : q.Denotes a b)
    (h : q.expose own e = .ok e' q') : ∃ name, e'.address = some (own, name) ∧
      ∀ (r : Query) (u : Table), u ∈ r.tables → u.query? = some q' → r.Denotes (own, name) b := by
  unfold expose at h
  by_cases hc : (q.starred && q.wildcardCovers e) = true
  · -- The wildcard outputs the column under its own name.
    rw [if_pos hc] at h
    rw [Bool.and_eq_true, wildcardCovers_iff he] at hc
    rcases hl : e.lift own with err | lifted
    · simp only [hl] at h; cases h
    simp only [hl] at h
    cases h
    obtain ⟨name, hname, rfl⟩ := lift_ok hl
    obtain ⟨hentry, hcolumn⟩ := hmemo hc.1
    obtain rfl : name = a.2 := Option.some.inj (hname.symm.trans (Expr.outputName_of_isColumn hcolumn he))
    exact ⟨a.2, rfl, fun r u hu hx => .wildcard hu hx hn hc.1 hc.2 hentry he hd⟩
  · -- A slot outputs it, under a name that may be another.
    rw [if_neg hc] at h
    obtain ⟨hmem, haddress⟩ := addSlot_address he q
    obtain ⟨added, keys, heq⟩ := addSlot_eq e q
    generalize q.addSlot e = shown at h hmem haddress heq
    rcases shown with ⟨slot, q₁⟩
    simp only at h hmem haddress heq
    rcases hl : slot.lift own with err | lifted
    · rw [hl] at h; cases h
    rw [hl] at h
    cases h
    obtain ⟨name, hname, rfl⟩ := lift_ok hl
    have hext : q.Extended q' := by
      rw [heq]
      exact ⟨rfl, rfl, rfl, rfl, List.subset_append_left _ _, List.Subset.refl _⟩
    refine ⟨name, rfl, fun r u hu hx => .slot hu hx (hext.name.trans hn) hmem hname haddress (fun hs hw => ?_) ?_⟩
    · rw [hext.starred] at hs
      rw [hext.wildcardTable] at hw
      exact hc (by rw [Bool.and_eq_true, wildcardCovers_iff he]; exact ⟨hs, hw⟩)
    · exact hd.mono (by rw [heq]; exact List.Subset.refl _)

end Query

section Bind

variable (threshold : Nat) (column : String) (type : DataType) (source : Source)

/-- Binding in a query, by way of its tables. -/
theorem Query.bind_denotes_of_tables {q q' : Query} {e : Expr}
    (htables : ∀ e ts, bindFirst threshold column type source q.tables = .ok e ts →
      ∃ a, e.address = some a ∧ ∀ r : Query, ts ⊆ r.tables → r.Denotes a (source, column))
    (h : q.bind threshold column type source = .ok e q') :
    ∃ a, e.address = some a ∧ q'.Denotes a (source, column) ∧ (q'.starred = true → e ∈ q'.memo.entries) := by
  rw [Query.bind_eq] at h
  rcases hb : bindFirst threshold column type source q.tables with ⟨bound, ts⟩ | ⟨err, ts⟩
  · rw [hb] at h
    obtain ⟨a, ha, hd⟩ := htables bound ts hb
    obtain ⟨he, hmem⟩ := Query.standIn_address threshold ha { q with tables := ts }
    have hcolumn := (grows_bindFirst threshold column type source q.tables).2 bound ts hb
    have hg := (Query.standIn_column threshold hcolumn { q with tables := ts }).1
    cases h
    exact ⟨a, he, hg.denotes (hd { q with tables := ts } (List.Subset.refl _)),
      fun hs => hmem (hg.extended.starred ▸ hs)⟩
  · rw [hb] at h; cases h

mutual

theorem Table.bind_denotes : ∀ (t : Table), t.Below Query.Sound → t.serves source = true → ∀ {e : Expr} {t' : Table},
    t.bind threshold column type source = .ok e t' →
      ∃ a, e.address = some a ∧ ∀ (r : Query) (u : Table), u ∈ r.tables → u.unjoined = t'.unjoined →
        r.Denotes a (source, column)
  | .base table schema own s, _, hs, e, t', h => by
    rw [Table.bind] at h
    cases h
    rw [Table.serves, beq_iff_eq] at hs
    exact ⟨(own, column), rfl, fun r u hu heq => .base hu (by rw [heq, hs]; rfl)⟩
  | .join kind target condition, ht, hs, e, t', h => by
    rw [Table.bind] at h
    obtain ⟨target', hb, rfl⟩ := mapState_ok h
    rw [Table.Below, Table.children, List.forall_mem_append] at ht
    obtain ⟨a, ha, hd⟩ := Table.bind_denotes target ht.1 hs hb
    exact ⟨a, ha, fun r u hu heq => hd r u hu heq⟩
  | .nested q, ht, _, e, t', h => by
    rw [Table.bind] at h
    rcases hn : q.name with _ | own
    · simp only [hn] at h; cases h
    simp only [hn] at h
    obtain ⟨q', hexpose, rfl⟩ := mapState_ok h
    -- The column is bound below first, and then shown by the nested query.
    have hsound : q.Sound := ht q (List.mem_singleton_self q)
    rcases hb : q.bind threshold column type source with ⟨bound, q₁⟩ | ⟨err, q₁⟩
    · rw [hb] at hexpose
      obtain ⟨a, ha, hd, hmem⟩ := Query.bind_denotes q hsound hb
      have hg := (Query.grows_bind threshold column type source q).1
      rw [hb] at hg
      have hmemo : q₁.starred = true → bound ∈ q₁.memo.entries ∧ bound.isColumn = true := fun hs =>
        ⟨hmem hs, (hsound.grows hg).memo bound (hmem hs)⟩
      obtain ⟨name, haddress, hd'⟩ := Query.expose_denotes (hg.extended.name.trans hn) ha hmemo hd hexpose
      refine ⟨(own, name), haddress, fun r u hu heq => hd' r u hu ?_⟩
      rw [Table.query?, heq]; rfl
    · rw [hb] at hexpose; cases hexpose

theorem Query.bind_denotes : ∀ (q : Query), q.Sound → ∀ {e : Expr} {q' : Query},
    q.bind threshold column type source = .ok e q' →
      ∃ a, e.address = some a ∧ q'.Denotes a (source, column) ∧ (q'.starred = true → e ∈ q'.memo.entries)
  | ⟨tables, _, _, _, _, _, _, _, _, _, _, _⟩, hsound, _, _, h =>
    Query.bind_denotes_of_tables threshold column type source
      (fun _ _ hb => bindFirst_denotes tables hsound.tables hb) h

theorem bindFirst_denotes : ∀ (ts : List Table), (∀ t ∈ ts, t.Below Query.Sound) → ∀ {e : Expr} {ts' : List Table},
    bindFirst threshold column type source ts = .ok e ts' →
      ∃ a, e.address = some a ∧ ∀ r : Query, ts' ⊆ r.tables → r.Denotes a (source, column)
  | [], _, _, _, h => by rw [bindFirst] at h; cases h
  | t :: ts, hts, e, ts', h => by
    rw [List.forall_mem_cons] at hts
    rw [bindFirst] at h
    split at h
    · rename_i hs
      obtain ⟨t', hb, rfl⟩ := mapState_ok h
      obtain ⟨a, ha, hd⟩ := Table.bind_denotes t hts.1 hs hb
      exact ⟨a, ha, fun r hr => hd r t' (hr (List.mem_cons_self ..)) rfl⟩
    · obtain ⟨ts'', hb, rfl⟩ := mapState_ok h
      obtain ⟨a, ha, hd⟩ := bindFirst_denotes ts hts.2 hb
      exact ⟨a, ha, fun r hr => hd r fun u hu => hr (List.mem_cons_of_mem _ hu)⟩

end

end Bind

/-! ## Requests -/

namespace Query

/-- What requests for columns leave of a query, in any number and also where they fail. -/
inductive Requested (q : Query) : Query → Prop
  | refl : Requested q q
  | column {r : Query} (settings : Settings) (column : String) (type : DataType) (source : Source) :
      Requested q r → Requested q (stateOf (resolveColumn settings column type source r))
  | property {r : Query} (settings : Settings) (properties : PropertyMap) (property : String) (source : Source) :
      Requested q r → Requested q (stateOf (resolveProperty settings properties property source r))

variable {q r : Query}

theorem Requested.grows (h : q.Requested r) : q.Grows r := by
  induction h with
  | refl => exact .refl q
  | column settings column type source _ ih => exact ih.trans (grows_resolveColumn settings column type source _)
  | property settings properties property source _ ih =>
    exact ih.trans (grows_resolveProperty settings properties property source _)

/-- A request that succeeds gives a reference that leads to the column requested. -/
theorem resolveColumn_denotes {settings : Settings} {column : String} {type : DataType} {source : Source} {e : Expr}
    (hq : q.Sound) (h : resolveColumn settings column type source q = .ok e r) :
    ∃ a, e.address = some a ∧ r.Denotes a (source, column) ∧ q.Grows r := by
  have hg := grows_resolveColumn settings column type source q
  rw [h] at hg
  unfold resolveColumn at h
  split at h
  · cases h
  · obtain ⟨a, ha, hd, -⟩ := bind_denotes settings.indexThreshold column type source q hq h
    exact ⟨a, ha, hd, hg⟩

/-- Growth adds no tables, so that what can be told apart stays so, but for slots and wildcards. -/
theorem Grows.unambiguous (hg : q.Grows r) (hq : q.Sound) (htables : q.TablesDiffer)
    (hnested : ∀ x : Query, x.Nested q → x.TablesDiffer) (hapart : ∀ x : Query, x.Nested r → x.Apart) :
    r.Unambiguous := by
  have hnames (es : List Table) : es.filterMap Table.name = (es.map Table.name).filterMap id := by
    rw [List.filterMap_map]; rfl
  have hdiffer {x x' : Query} (hg : x.Grows x') (hx : x.TablesDiffer) : x'.TablesDiffer := by
    rw [TablesDiffer, hnames, hg.extended.tables, ← hnames]; exact hx
  have hsound := hq.grows hg
  refine ⟨hdiffer hg htables, fun x' hx' => ?_, fun x hx => (hsound x hx.within).slots, hapart,
    fun x hx => (hsound x hx.within).memo⟩
  obtain ⟨x, hx, hgx⟩ := hg.nested hx'
  exact hdiffer hgx (hnested x hx)

end Query

/-- References to two columns of base tables differ, whatever is requested in between, as long as no slot
of a nested query has come to share its name with a column of the wildcard there. A table is known by the
query source that it satisfies. -/
theorem references_differ {settings settings' : Settings} {q q₁ r q₂ : Query} {e e' : Expr} {column column' : String}
    {type type' : DataType} {source source' : Source} (hq : q.Composed)
    (htables : ∀ x, .enter x ∈ q.events none → x.TablesDiffer) (hne : (source, column) ≠ (source', column'))
    (h : Query.resolveColumn settings column type source q = .ok e q₁) (hr : q₁.Requested r)
    (h' : Query.resolveColumn settings' column' type' source' r = .ok e' q₂) (hapart : ∀ x ∈ q₂.subqueries, x.Apart) :
    e.equiv e' = false ∧ e'.equiv e = false := by
  obtain ⟨a, ha, hd, hg⟩ := Query.resolveColumn_denotes hq.sound h
  obtain ⟨a', ha', hd', hg'⟩ := Query.resolveColumn_denotes ((hq.sound.grows hg).grows hr.grows) h'
  simp only [Query.enter_mem_events] at htables
  have hall : q₂.Unambiguous := ((hg.trans hr.grows).trans hg').unambiguous hq.sound (htables q q.self_mem_queries)
    (fun x hx => htables x (by rw [Query.queries_eq]; exact List.mem_cons_of_mem _ hx.mem_subqueries))
    fun x hx => hapart x hx.mem_subqueries
  -- The first reference leads to its column in the last tree too, where one address leads to one column.
  have hdiffer : a ≠ a' := by
    rintro rfl
    exact hne (((hr.grows.trans hg').denotes hd).unique hall hd')
  refine ⟨?_, ?_⟩ <;> rw [← Bool.not_eq_true] <;> intro heq <;> have haddress := Expr.address_of_equiv heq
  · exact hdiffer (Option.some.inj (ha.symm.trans (haddress.trans ha')))
  · exact hdiffer (Option.some.inj (ha'.symm.trans (haddress.trans ha))).symm

/-- The reference that a request gives, if it succeeds. -/
def given? : EStateM.Result Error Query Expr → Option Expr
  | .ok e _ => some e
  | .error _ _ => none

theorem exists_of_given? {r : EStateM.Result Error Query Expr} {p : Expr → Bool} (h : (given? r).any p = true) :
    ∃ e, r = .ok e (stateOf r) ∧ p e = true := by
  rcases r with ⟨e, q⟩ | ⟨err, q⟩
  · exact ⟨e, rfl, h⟩
  · cases h

/-- Identifiers of two tables that stand beside the one of the wildcard. -/
theorem references_differ_beside_wildcard :
    let n : Query := {
      tables := [.base "People" none "p" (some ⟨1⟩), .base "Orders" none "o" (some ⟨2⟩),
        .base "Items" none "i" (some ⟨3⟩)]
      name := some "t"
      starred := true
      wildcardChoice := some "p" }
    let q : Query := { tables := [.nested n] }
    let first := Query.resolveColumn {} "Id" .int32 ⟨2⟩ q
    let r := stateOf (Query.resolveColumn {} "Name" .text ⟨1⟩ (stateOf first))
    let second := Query.resolveColumn {} "Id" .int32 ⟨3⟩ r
    q.Composed ∧ (∀ x, .enter x ∈ q.events none → x.TablesDiffer) ∧ (stateOf first).Requested r ∧
      (∀ x ∈ (stateOf second).subqueries, x.Apart) ∧
      ∃ e e', (first = .ok e (stateOf first) ∧ e.address = some ("t", "Id")) ∧
        (second = .ok e' (stateOf second) ∧ e'.address = some ("t", "Id0")) ∧
        e.equiv e' = false ∧ e'.equiv e = false := by
  intro n q first r second
  have hn : n.Composed := (Query.Composed.fresh (some "t")).apply (.appendTable (.base "People" none "p" (some ⟨1⟩)))
    |>.apply (.appendTable (.base "Orders" none "o" (some ⟨2⟩)))
    |>.apply (.appendTable (.base "Items" none "i" (some ⟨3⟩)))
    |>.apply (.chooseWildcard "p")
    |>.apply (.switchWildcard true)
  have hq : q.Composed := (Query.Composed.fresh none).applyTo (.appendTable (.nested n)) hn
  have htables : ∀ x, .enter x ∈ q.events none → x.TablesDiffer := by
    simp only [Query.enter_mem_events]; decide +kernel
  have hr : (stateOf first).Requested r := .column {} "Name" .text ⟨1⟩ .refl
  have hapart : ∀ x ∈ (stateOf second).subqueries, x.Apart := by decide +kernel
  obtain ⟨e, hfirst, ha⟩ := exists_of_given? (r := first) (p := (·.address == some ("t", "Id"))) (by decide +kernel)
  obtain ⟨e', hsecond, ha'⟩ := exists_of_given? (r := second) (p := (·.address == some ("t", "Id0")))
    (by decide +kernel)
  exact ⟨hq, htables, hr, hapart, e, e', ⟨hfirst, eq_of_beq ha⟩, ⟨hsecond, eq_of_beq ha'⟩,
    references_differ hq htables (by decide) hfirst hr hsecond hapart⟩

/-- The identifiers of the table of the wildcard and of another: the slot that the second gets has the
name under which the wildcard outputs the first. -/
theorem references_agree_beside_wildcard :
    let n : Query := {
      tables := [.base "People" none "p" (some ⟨1⟩), .base "Orders" none "o" (some ⟨2⟩)]
      name := some "t"
      starred := true
      wildcardChoice := some "p" }
    let q : Query := { tables := [.nested n] }
    let first := Query.resolveColumn {} "Id" .int32 ⟨1⟩ q
    let second := Query.resolveColumn {} "Id" .int32 ⟨2⟩ (stateOf first)
    q.Composed ∧ (∀ x, .enter x ∈ q.events none → x.TablesDiffer) ∧
      ∃ e e', first = .ok e (stateOf first) ∧ second = .ok e' (stateOf second) ∧ e.equiv e' = true := by
  intro n q first second
  have hn : n.Composed := (Query.Composed.fresh (some "t")).apply (.appendTable (.base "People" none "p" (some ⟨1⟩)))
    |>.apply (.appendTable (.base "Orders" none "o" (some ⟨2⟩)))
    |>.apply (.chooseWildcard "p")
    |>.apply (.switchWildcard true)
  have hq : q.Composed := (Query.Composed.fresh none).applyTo (.appendTable (.nested n)) hn
  have htables : ∀ x, .enter x ∈ q.events none → x.TablesDiffer := by
    simp only [Query.enter_mem_events]; decide +kernel
  obtain ⟨e, hfirst, he⟩ := exists_of_given? (r := first) (p := fun e => (given? second).any e.equiv)
    (by decide +kernel)
  obtain ⟨e', hsecond, hequiv⟩ := exists_of_given? he
  exact ⟨hq, htables, e, e', hfirst, hsecond, hequiv⟩

end QueryTree
