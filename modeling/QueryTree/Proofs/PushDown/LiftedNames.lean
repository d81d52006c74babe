/-
Names under which a push-down refers to what it has moved into the nested query. A sort key or member is
answered by the one slot of its name, or by the wildcard. Slots get names that differ from those of other
slots alone: beside a wildcard, one of its columns and a slot may answer to the same name.
-/
import QueryTree.Proofs.Composed
import QueryTree.Proofs.PushDown.Shape
import QueryTree.Query.Binding

namespace QueryTree

/-! ## Outputs that answer to a name -/

namespace Expr

/-- The names under which `a` and `b` are output differ at most in case. -/
def sharesName (a b : Expr) : Bool := a.outputName.any fun m => b.outputName.any (Name.clash m)

theorem sharesName_iff {a b : Expr} : a.sharesName b = true ↔
    ∃ m, a.outputName = some m ∧ ∃ n, b.outputName = some n ∧ Text.lowercase m = Text.lowercase n := by
  simp [sharesName, Option.any_eq_true, Name.clash_iff]

theorem sharesName_congr {a b b' : Expr} (h : b.outputName = b'.outputName) : a.sharesName b = a.sharesName b' := by
  rw [sharesName, sharesName, h]

/-- `slot` is structurally equal to `e`, as it is or without the casts that are dropped, or was made from `e`. -/
inductive Holds (e slot : Expr) : Prop
  | equal : slot.equiv e = true → Holds e slot
  | stripped : slot.equiv e.stripCasts = true → Holds e slot
  | made : slot.unnamed = e.stripCasts.unnamed → Holds e slot

end Expr

theorem SlotsNamed.not_sharesName {slots : List Expr} (h : SlotsNamed slots) :
    slots.Pairwise fun a b => a.sharesName b = false ∧ b.sharesName a = false := by
  refine h.pairwise.imp fun hdiffer => ?_
  simp only [← Bool.not_eq_true, Expr.sharesName_iff]
  constructor
  · rintro ⟨m, hm, n, hn, heq⟩
    exact hdiffer m hm n hn heq
  · rintro ⟨n, hn, m, hm, heq⟩
    exact hdiffer m hm n hn heq.symm

/-- Among elements none of which is related to another, each is related to itself alone. -/
theorem filter_eq_singleton {α : Type} {R : α → α → Bool} {x : α} (hself : R x x = true) : ∀ {xs : List α},
    xs.Pairwise (fun a b => R a b = false ∧ R b a = false) → x ∈ xs → xs.filter (R · x) = [x]
  | [], _, hx => by cases hx
  | y :: xs, h, hx => by
    obtain ⟨hy, hxs⟩ := List.pairwise_cons.1 h
    rw [List.filter_cons]
    rcases List.mem_cons.1 hx with rfl | hx
    · have hrest : xs.filter (R · x) = [] := by
        rw [List.filter_eq_nil_iff]
        intro z hz
        rw [(hy z hz).2]
        exact Bool.false_ne_true
      rw [if_pos hself, hrest]
    · rw [(hy x hx).1, if_neg Bool.false_ne_true, filter_eq_singleton hself hxs hx]

namespace Query

/-- What `c` outputs under the name of `e`, where its wildcard stands for `columns`. -/
def answering (columns : List Expr) (e : Expr) (c : Query) : List Expr :=
  ((if c.starred then columns else []) ++ c.projection).filter (·.sharesName e)

/-- `e'` refers to what `c`, the nested query `t`, outputs for `e`. -/
inductive Presents (t : String) (c : Query) (e : Expr) : Expr → Prop
  | slot {slot : Expr} {name : String} : slot ∈ c.projection → slot.outputName = some name → e.Holds slot →
      Presents t c e (.output t name slot.type)
  | wildcard {name : String} : c.starred = true → c.wildcardCovers e = true → e.unnamed.outputName = some name →
      Presents t c e (.output t name e.type)

theorem Presents.widen {t : String} {c c' : Query} {e e' : Expr} (h : c.Presents t e e')
    (hslots : c.projection ⊆ c'.projection) (hs : c'.starred = c.starred) (hw : c'.wildcardTable = c.wildcardTable) :
    c'.Presents t e e' := by
  cases h with
  | slot hmem hname hholds => exact .slot (hslots hmem) hname hholds
  | wildcard hstarred hcovers hname =>
    refine .wildcard (hs.trans hstarred) ?_ hname
    rwa [wildcardCovers, hw]

/-! ## Lifting -/

theorem addSlot_holds (e : Expr) (c : Query) :
    (c.addSlot e).1 ∈ (c.addSlot e).2.projection ∧ e.Holds (c.addSlot e).1 := by
  have hcases := project_slots e false c
  unfold addSlot
  generalize c.project e false = projected at hcases ⊢
  rcases hcases with ⟨hfound, hslots⟩ | ⟨-, hlength, slot, hmade, hslots⟩
  · obtain ⟨slot, hslot, hequal⟩ := slotOf_eq_some hfound
    rw [← hslots] at hslot
    simp only [List.getD_eq_getElem?_getD, hslot, Option.getD_some]
    exact ⟨List.mem_of_getElem? hslot, .stripped hequal⟩
  · simp only [List.getD_eq_getElem?_getD, hslots, hlength, List.getElem?_concat_length, Option.getD_some]
    exact ⟨List.mem_append_right _ (List.mem_singleton_self _), .made hmade⟩

/-- The query `q` with what `c` outputs of its tables. -/
def withOutput (q c : Query) : Query := { q with projection := c.projection, starred := c.starred }

theorem wildcardCovers_eq (e : Expr) (q : Query) :
    q.wildcardCovers e = (q.wildcardTable.isSome && e.unnamed.owner == q.wildcardTable) := by
  unfold wildcardCovers
  rcases e.unnamed.owner with _ | table
  · cases q.wildcardTable <;> rfl
  · rcases q.wildcardTable with _ | own
    · rfl
    · show (some own == some table) = (some table == some own)
      exact Bool.beq_comm ..

/-- The first slot that equals `e` is shown for it, else the wildcard where it has `e`, else a new slot. -/
theorem showSlot_eq (e : Expr) (q c : Query) : c.showSlot q.wildcardTable e =
    (c.projection.find? (·.equiv e)).elim
      (if c.starred && q.wildcardCovers e then (e.unnamed, c) else c.addSlot e) (·, c) := by
  have hfind : c.projection.find? (·.equiv e) = (c.slotOf e).bind fun i => c.projection[i]? :=
    List.find?_eq_bind_findIdx?_getElem?
  rw [hfind]
  unfold showSlot
  rcases hi : c.slotOf e with _ | i
  · rw [wildcardCovers_eq, ← Bool.and_assoc]
    rfl
  · obtain ⟨slot, hslot, -⟩ := slotOf_eq_some hi
    simp only [Option.bind_some, hslot, List.getD_eq_getElem?_getD, Option.getD_some, Option.elim_some]

theorem isColumn_of_wildcardCovers {e : Expr} {q : Query} (h : q.wildcardCovers e = true) :
    e.unnamed.isColumn = true := by
  unfold wildcardCovers at h
  rcases howner : e.unnamed.owner with _ | table
  · rw [howner] at h
    cases h
  · exact isColumn_of_owner howner

/-- A column that has a slot has one among the copies of slots. -/
theorem Copies.slot_of_covers {q : Query} {copies : List Expr} (h : Copies q.projection copies) {e : Expr}
    (he : e.unnamed.isColumn = true) (hcovers : q.covers e = true) : ∃ slot ∈ copies, slot.equiv e = true := by
  rw [covers, stripCasts_of_column he, Bool.or_self] at hcovers
  obtain ⟨i, hi⟩ := Option.isSome_iff_exists.1 hcovers
  rw [slotOf_congr (r := { projection := copies }) h.values.symm] at hi
  obtain ⟨slot, hslot, hequal⟩ := slotOf_eq_some hi
  exact ⟨slot, List.mem_of_getElem? hslot, hequal⟩

/-- What has a slot, or else is a column of the wildcard, gets no new slot. -/
theorem showSlot_projection {e : Expr} {q c : Query}
    (h : c.covers e = true ∨ c.starred = true ∧ q.wildcardCovers e = true) :
    (c.showSlot q.wildcardTable e).2.projection = c.projection := by
  unfold showSlot
  rcases hslot : c.slotOf e with _ | i
  · rw [covers, hslot, Option.isSome_none, Bool.false_or, wildcardCovers_eq, Bool.and_eq_true, ← and_assoc] at h
    simp only [Bool.and_eq_true, and_assoc]
    split
    · rfl
    · rename_i hcolumn
      obtain ⟨added, hgains, hnil, -⟩ := addSlot_spec e c
      rw [hgains.projection, hnil.2 (h.resolve_right fun hc => hcolumn ⟨hc.1.1, hc.1.2, hc.2⟩), List.append_nil]
  · rfl

/-- What is lifted refers to a slot that holds it, or to itself as a column of the wildcard without a slot. -/
theorem liftThrough_cases {q c c' : Query} {t : String} {e e' : Expr}
    (h : (liftThrough t q.wildcardTable e).run c = .ok (e', c')) :
    (∃ slot ∈ c'.projection, ∃ name, slot.outputName = some name ∧ e.Holds slot ∧ e' = .output t name slot.type) ∨
      c' = c ∧ c.projection.find? (·.equiv e) = none ∧ c.starred = true ∧ q.wildcardCovers e = true ∧
        ∃ name, e.unnamed.outputName = some name ∧ e' = .output t name e.type := by
  obtain ⟨hlift, hc'⟩ := shown_of_liftThrough h
  generalize hshown : c.showSlot q.wildcardTable e = shown at hlift hc'
  obtain ⟨shown, c₁⟩ := shown
  obtain ⟨name, hname, rfl⟩ := lift_ok hlift
  subst hc'
  rw [showSlot_eq] at hshown
  -- A slot goes before the wildcard, and the wildcard before a new slot.
  rcases hfound : c.projection.find? (·.equiv e) with _ | slot
  · rw [hfound, Option.elim_none] at hshown
    by_cases hwild : (c.starred && q.wildcardCovers e) = true
    · rw [if_pos hwild] at hshown
      cases hshown
      rw [Bool.and_eq_true] at hwild
      exact .inr ⟨rfl, hfound, hwild.1, hwild.2, name, hname, by rw [Expr.type_unnamed]⟩
    · rw [if_neg hwild] at hshown
      obtain ⟨hmem, hholds⟩ := addSlot_holds e c
      rw [hshown] at hmem hholds
      exact .inl ⟨shown, hmem, name, hname, hholds, rfl⟩
  · rw [hfound, Option.elim_some] at hshown
    cases hshown
    have hequal : shown.equiv e = true := by simpa using List.find?_some hfound
    exact .inl ⟨shown, List.mem_of_find?_eq_some hfound, name, hname, .equal hequal, rfl⟩

theorem presents_of_liftThrough {q c c' : Query} {t : String} {e e' : Expr}
    (h : (liftThrough t q.wildcardTable e).run c = .ok (e', c')) : (q.withOutput c').Presents t e e' := by
  rcases liftThrough_cases h with ⟨slot, hmem, name, hname, hholds, rfl⟩ | ⟨rfl, -, hs, hcovers, name, hname, rfl⟩
  · exact .slot hmem hname hholds
  · exact .wildcard hs hcovers hname

section Loop

variable {t : String} {wildcard : Option String} {T : Query → Prop} {P : Query → Expr → Expr → Prop}

/-- What holds of each expression and what it is lifted to, where `T` is kept by all of them, holds of all in the
nested query that they leave: its slots have stayed in their places. -/
theorem mapM_liftThrough_related (hwiden : ∀ {c c' : Query} {e e' : Expr}, c.projection <+: c'.projection →
      c'.starred = c.starred → P c e e' → P c' e e') {α : Type} (get : α → Expr) (put : α → Expr → α) :
    ∀ {xs ys : List α} {c c' : Query},
      (∀ x ∈ xs, ∀ {c c' e'}, T c → (liftThrough t wildcard (get x)).run c = .ok (e', c') → T c' ∧ P c' (get x) e') →
      T c → (xs.mapM fun x => return put x (← liftThrough t wildcard (get x))).run c = .ok (ys, c') →
      T c' ∧ List.Forall₂ (fun x y => ∃ e', y = put x e' ∧ P c' (get x) e') xs ys
  | [], _, _, _, _, hc, h => by
    cases h
    exact ⟨hc, .nil⟩
  | x :: xs, ys, c, c', hlift, hc, h => by
    rw [List.mapM_cons] at h
    obtain ⟨y, c₁, hy, h⟩ := run_bind_ok h
    obtain ⟨e', c₂, he', hy⟩ := run_bind_ok hy
    cases hy
    obtain ⟨ys', c₂, hys, h⟩ := run_bind_ok h
    cases h
    rw [List.forall_mem_cons] at hlift
    obtain ⟨hc₁, hhead⟩ := hlift.1 hc he'
    obtain ⟨hc', htail⟩ := mapM_liftThrough_related hwiden get put hlift.2 hc₁ hys
    obtain ⟨added, hgains, -⟩ := mapM_liftThrough_ok get put hys
    have hslots : c₁.projection <+: c'.projection := hgains.projection ▸ List.prefix_append ..
    exact ⟨hc', .cons ⟨e', rfl, hwiden hslots hgains.starred hhead⟩ htail⟩

end Loop

/-- What is lifted in a push-down, with what it becomes. -/
def lifted (q p : Query) : List (Expr × Expr) :=
  (q.orderBy.map (·.expr)).zip (p.orderBy.map (·.expr)) ++ (q.members.map (·.2)).zip (p.members.map (·.2))

theorem forall_mem_zip_map {α β : Type} {R : β → β → Prop} {f : α → β} {xs ys : List α}
    (h : List.Forall₂ (fun x y => R (f x) (f y)) xs ys) : ∀ r ∈ (xs.map f).zip (ys.map f), R r.1 r.2 := by
  have hmap : List.Forall₂ R (xs.map f) (ys.map f) := by rwa [List.forall₂_map_left_iff, List.forall₂_map_right_iff]
  rintro ⟨a, b⟩ hr
  exact (List.forall₂_iff_zip.1 hmap).2 hr

/-- The same for all that a push-down lifts. The nested query that it leaves has the slots of `lifting`, the last
one that `T` was kept by. -/
theorem pushedDown_related {T : Query → Prop} {P : Query → Expr → Expr → Prop} {t : String} {q p : Query}
    (hwiden : ∀ {c c' : Query} {e e' : Expr}, c.projection <+: c'.projection → c'.starred = c.starred →
      P c e e' → P c' e e')
    (hlift : ∀ e ∈ q.orderBy.map (·.expr) ++ q.members.map (·.2), ∀ {c c' e'}, T c →
      (liftThrough t q.wildcardTable e).run c = .ok (e', c') → T c' ∧ P c' e e')
    (hfirst : T (q.firstChild t)) (h : q.pushedDown t = .ok p) :
    ∃ lifting c, T lifting ∧ p.tables = [.nested c] ∧ c.projection = lifting.projection ∧
      ∀ r ∈ q.lifted p, P c r.1 r.2 := by
  obtain ⟨keys, c₁, members, c₂, hkeys, hmembers, rfl⟩ := pushedDown_run h
  rw [List.forall_mem_append, List.forall_mem_map, List.forall_mem_map] at hlift
  obtain ⟨hc₁, hkeys'⟩ :=
    mapM_liftThrough_related (P := P) hwiden OrderKey.expr (fun key e => { key with expr := e }) hlift.1 hfirst hkeys
  obtain ⟨hc₂, hmembers'⟩ :=
    mapM_liftThrough_related (P := P) hwiden Prod.snd (fun m e => (m.1, e)) hlift.2 hc₁ hmembers
  obtain ⟨added, hgains, -⟩ := mapM_liftThrough_ok Prod.snd (fun m e => (m.1, e)) hmembers
  have hslots : c₁.projection <+: c₂.projection := hgains.projection ▸ List.prefix_append ..
  refine ⟨c₂, _, hc₂, rfl, rfl,
    List.forall_mem_append.2 ⟨forall_mem_zip_map (hkeys'.imp ?_), forall_mem_zip_map (hmembers'.imp ?_)⟩⟩
  · rintro k _ ⟨e', rfl, hrelated⟩
    exact hwiden hslots hgains.starred hrelated
  · rintro m _ ⟨e', rfl, hrelated⟩
    exact hwiden (c := c₂) (List.prefix_refl _) rfl hrelated

theorem pushedDown_presents {t : String} {q p : Query} (h : q.pushedDown t = .ok p) :
    ∃ c, p.tables = [.nested c] ∧ ∀ r ∈ q.lifted p, c.Presents t r.1 r.2 := by
  obtain ⟨-, c, -, htables, -, hpresents⟩ := pushedDown_related (T := fun _ => True)
    (P := fun c e e' => (q.withOutput c).Presents t e e')
    (fun hslots hstarred hp => hp.widen hslots.subset hstarred rfl)
    (fun _ _ _ _ _ _ hrun => ⟨trivial, presents_of_liftThrough hrun⟩) trivial h
  obtain ⟨c', copies, added, hmoved⟩ := pushedDown_moved h
  obtain rfl : c = c' := nested_eq_of_tables htables (congrArg Query.tables hmoved.parent)
  have hwildcard : c.wildcardTable = q.wildcardTable := by
    rw [hmoved.child]
    rfl
  exact ⟨c, htables, fun r hr => (hpresents r hr).widen (List.Subset.refl _) rfl hwildcard⟩

/-- No slot is added for keys and members that have slots or are columns of the wildcard. -/
theorem Moved.added_eq_nil_of_shown {t : String} {q p c : Query} {copies added : List Expr}
    (hmoved : Moved t q p c copies added) (h : q.pushedDown t = .ok p)
    (hshown : ∀ e ∈ q.orderBy.map (·.expr) ++ q.members.map (·.2),
      q.covers e = true ∨ q.wild = true ∧ q.wildcardCovers e = true) : added = [] := by
  obtain ⟨copies', hcopies', hfirst⟩ := firstChild_spec t q
  -- What is lifted leaves the slots of the first child alone, so that it covers what `q` covers.
  obtain ⟨lifting, c', ⟨hslots, -⟩, htables, hprojection, -⟩ := pushedDown_related
    (T := fun d => d.projection = copies' ∧ d.starred = q.wild) (P := fun _ _ _ => True) (fun _ _ h => h)
    (fun e he d d' e' ⟨hslots, hstarred⟩ hrun => by
      have hcovers : d.covers e = q.covers e := covers_congr (by rw [hslots]; exact hcopies'.values) e
      obtain ⟨added', hgains, -⟩ := liftThrough_ok hrun
      have hsame := showSlot_projection (q := q) (e := e) (c := d) (by rw [hcovers, hstarred]; exact hshown e he)
      rw [← (shown_of_liftThrough hrun).2] at hsame
      exact ⟨⟨hsame.trans hslots, hgains.starred.trans hstarred⟩, trivial⟩)
    (by rw [hfirst]; exact ⟨rfl, rfl⟩) h
  rw [hmoved.parent] at htables
  cases htables
  have hlength : (copies ++ added).length = copies'.length := by rw [← hmoved.projection, hprojection, hslots]
  have hcopies : copies.length = copies'.length := by
    simpa using congrArg List.length (hmoved.copies.values.trans hcopies'.values.symm)
  rw [List.length_append, hcopies] at hlength
  exact List.length_eq_zero_iff.1 (by omega)

/-- What is lifted is referred to by the name of a slot, or is a column of the wildcard that has had no slot. -/
theorem pushedDown_named {t : String} {q p : Query} (h : q.pushedDown t = .ok p) :
    ∃ c, p.tables = [.nested c] ∧ ∀ r ∈ q.lifted p, ∃ name type, r.2 = .output t name type ∧
      ((∃ slot ∈ c.projection, slot.outputName = some name) ∨
        q.wild = true ∧ q.wildcardCovers r.1 = true ∧ q.covers r.1 = false ∧ r.1.unnamed.outputName = some name) := by
  obtain ⟨copies, hcopies, hfirst⟩ := firstChild_spec t q
  obtain ⟨-, c, -, htables, -, hnamed⟩ := pushedDown_related
    (T := fun d => copies <+: d.projection ∧ d.starred = q.wild)
    (P := fun d e e' => ∃ name type, e' = .output t name type ∧ ((∃ slot ∈ d.projection, slot.outputName = some name) ∨
      q.wild = true ∧ q.wildcardCovers e = true ∧ q.covers e = false ∧ e.unnamed.outputName = some name))
    (fun hslots _ ⟨name, type, heq, hname⟩ =>
      ⟨name, type, heq, hname.imp_left fun ⟨slot, hs, hn⟩ => ⟨slot, hslots.subset hs, hn⟩⟩)
    (fun e _ d d' e' ⟨hslots, hstarred⟩ hrun => by
      obtain ⟨added, hgains, -⟩ := liftThrough_ok hrun
      refine ⟨⟨?_, hgains.starred.trans hstarred⟩, ?_⟩
      · rw [hgains.projection]
        exact hslots.trans (List.prefix_append ..)
      rcases liftThrough_cases hrun with ⟨slot, hmem, name, hname, -, rfl⟩ | ⟨rfl, hfree, hs, hwild, name, hname, rfl⟩
      · exact ⟨name, _, rfl, .inl ⟨slot, hmem, hname⟩⟩
      · refine ⟨name, _, rfl, .inr ⟨hstarred ▸ hs, hwild, ?_, hname⟩⟩
        -- A column that had a slot would have been found in it, as slots only come at the end.
        by_contra hcovers
        rw [Bool.not_eq_false] at hcovers
        obtain ⟨slot, hslot, hequal⟩ := hcopies.slot_of_covers (isColumn_of_wildcardCovers hwild) hcovers
        rw [List.find?_eq_none] at hfree
        exact hfree slot (hslots.subset hslot) hequal)
    (by rw [hfirst]; exact ⟨List.prefix_refl _, rfl⟩) h
  exact ⟨c, htables, hnamed⟩

/-- The slots of `q` once it is pushed down: its own, and those for sort keys and members that have none and are no
columns of the wildcard. -/
def sunkSlots (t : String) (q : Query) : List Expr :=
  ((q.orderBy.map (·.expr) ++ q.members.map (·.2)).foldl (fun c e => (c.showSlot q.wildcardTable e).2)
    (q.firstChild t)).projection

theorem mapM_liftThrough_state {α : Type} {t : String} {wildcard : Option String} (get : α → Expr)
    (put : α → Expr → α) : ∀ {xs ys : List α} {c c' : Query},
      (xs.mapM fun x => return put x (← liftThrough t wildcard (get x))).run c = .ok (ys, c') →
      c' = (xs.map get).foldl (fun c e => (c.showSlot wildcard e).2) c
  | [], _, _, _, h => by cases h; rfl
  | x :: xs, ys, c, c', h => by
    rw [List.mapM_cons] at h
    obtain ⟨y, c₁, hy, h⟩ := run_bind_ok h
    obtain ⟨e', c₂, he', hy⟩ := run_bind_ok hy
    cases hy
    obtain ⟨ys', c₂, hys, h⟩ := run_bind_ok h
    cases h
    rw [List.map_cons, List.foldl_cons, ← (shown_of_liftThrough he').2]
    exact mapM_liftThrough_state get put hys

theorem sunkSlots_of_pushedDown {t : String} {q p c : Query} (h : q.pushedDown t = .ok p)
    (hc : p.tables = [.nested c]) : c.projection = q.sunkSlots t := by
  obtain ⟨keys, c₁, members, c₂, hkeys, hmembers, rfl⟩ := pushedDown_run h
  cases hc
  have hfirst := mapM_liftThrough_state OrderKey.expr (fun key e => { key with expr := e }) hkeys
  have hsecond := mapM_liftThrough_state Prod.snd (fun m e => (m.1, e)) hmembers
  rw [sunkSlots, List.foldl_append, ← hfirst, ← hsecond]

/-! ## References that are not ambiguous -/

/-- What a slot presents, no other slot does under its name. -/
theorem Presents.answered {t : String} {c : Query} {e e' : Expr} (h : c.Presents t e e')
    (hnamed : SlotsNamed c.projection) :
    ∃ name type, e' = .output t name type ∧
      ((∃ slot, c.projection.filter (·.sharesName e') = [slot] ∧ slot.type = type ∧ e.Holds slot) ∨
        c.starred = true ∧ c.wildcardCovers e = true ∧ e.unnamed.outputName = some name ∧ e.type = type) := by
  cases h with
  | @slot slot name hmem hname hholds =>
    refine ⟨name, slot.type, rfl, .inl ⟨slot, ?_, rfl, hholds⟩⟩
    have hself : slot.sharesName slot = true := Expr.sharesName_iff.2 ⟨name, hname, name, hname, rfl⟩
    have hsame : ∀ x : Expr, x.sharesName (.output t name slot.type) = x.sharesName slot :=
      fun x => Expr.sharesName_congr hname.symm
    simp only [hsame]
    exact filter_eq_singleton hself hnamed.not_sharesName hmem
  | @wildcard name hstarred hcovers hname => exact ⟨name, e.type, rfl, .inr ⟨hstarred, hcovers, hname, rfl⟩⟩

/-- Without a wildcard all that answers to the name holds the value. With one, its columns of that name have to
hold it too, and where it presents the value, so do the slots. -/
theorem Presents.answering_iff {t : String} {c : Query} {e e' : Expr} (h : c.Presents t e e')
    (hnamed : SlotsNamed c.projection) (columns : List Expr) :
    (∀ x ∈ c.answering columns e', e.Holds x) ↔
      (c.starred = true → (∀ x ∈ columns, x.sharesName e' = true → e.Holds x) ∧
        (c.wildcardCovers e = true → ∀ slot ∈ c.projection, slot.sharesName e' = true → e.Holds slot)) := by
  have hmem : ∀ x, x ∈ c.answering columns e' ↔
      (c.starred = true ∧ x ∈ columns ∨ x ∈ c.projection) ∧ x.sharesName e' = true := by
    intro x
    cases hs : c.starred <;> simp [answering, hs, or_and_right]
  simp only [hmem]
  constructor
  · intro hall hstarred
    exact ⟨fun x hx hname => hall x ⟨.inl ⟨hstarred, hx⟩, hname⟩,
      fun _ slot hslot hname => hall slot ⟨.inr hslot, hname⟩⟩
  · rintro hwild x ⟨⟨hstarred, hx⟩ | hx, hname⟩
    · exact (hwild hstarred).1 x hx hname
    · obtain ⟨name, type, -, ⟨slot, honly, -, hholds⟩ | ⟨hstarred, hcovers, -⟩⟩ := h.answered hnamed
      · have hslot : x ∈ c.projection.filter (·.sharesName e') := List.mem_filter.2 ⟨hx, hname⟩
        rw [honly, List.mem_singleton] at hslot
        rwa [hslot]
      · exact (hwild hstarred).2 hcovers x hx hname

end Query

/-- A sort key or member that is lifted refers to the only slot of its name, which holds its value, or to itself
as a column of the wildcard. All else that answers to the name holds the value too exactly if the wildcard of the
query that is pushed down does not share names, for different values, with the slots that it has then. -/
theorem pushDown_references {q p : Query} {s s' : Session} (h : Edit.pushDown ⟨q, s⟩ = .ok () ⟨p, s'⟩) :
    ∃ t c, p.tables = [.nested c] ∧ c.name = some t ∧ c.starred = q.wild ∧ c.wildcardTable = q.wildcardTable ∧
      c.projection = q.sunkSlots t ∧ p.orderBy.length = q.orderBy.length ∧ p.members.length = q.members.length ∧
      ∀ r ∈ q.lifted p,
      (∃ name type, r.2 = .output t name type ∧
        ((∃ slot, (q.sunkSlots t).filter (·.sharesName r.2) = [slot] ∧ slot.type = type ∧ r.1.Holds slot) ∨
          q.wild = true ∧ q.wildcardCovers r.1 = true ∧ r.1.unnamed.outputName = some name ∧ r.1.type = type)) ∧
      ∀ columns, (∀ x ∈ c.answering columns r.2, r.1.Holds x) ↔
        (q.wild = true → (∀ x ∈ columns, x.sharesName r.2 = true → r.1.Holds x) ∧
          (q.wildcardCovers r.1 = true → ∀ slot ∈ q.sunkSlots t, slot.sharesName r.2 = true → r.1.Holds slot)) := by
  obtain ⟨t, -, hq⟩ := Edit.pushDown_ok h
  change q.pushedDown t = .ok p at hq
  obtain ⟨c, copies, added, hmoved⟩ := Query.pushedDown_moved hq
  obtain ⟨c', htables, hpresents⟩ := Query.pushedDown_presents hq
  have hslots : c'.projection = q.sunkSlots t := Query.sunkSlots_of_pushedDown hq htables
  rw [hmoved.parent] at htables
  cases htables
  have hstarred : c.starred = q.wild := by rw [hmoved.child]
  have hwildcard : c.wildcardTable = q.wildcardTable := by rw [hmoved.child]; rfl
  have hcovers (e : Expr) : c.wildcardCovers e = q.wildcardCovers e := by
    rw [Query.wildcardCovers_eq, Query.wildcardCovers_eq, hwildcard]
  refine ⟨t, c, by rw [hmoved.parent], by rw [hmoved.child], hstarred, hwildcard, hslots,
    hmoved.keys.length_eq.symm, hmoved.members.length_eq.symm, fun r hr => ?_⟩
  rw [← hstarred, ← hcovers, ← hslots]
  exact ⟨(hpresents r hr).answered hmoved.named, (hpresents r hr).answering_iff hmoved.named⟩

/-- The identifier goes through the wildcard, the total through the slot that it has had. The columns of people
have other names than that slot. -/
theorem pushDown_references_beside_wildcard :
    let id := Expr.column "p" (some ⟨1⟩) "Id" .int32
    let total := Expr.column "o" (some ⟨2⟩) "Total" .int32
    let columns := [id, .column "p" (some ⟨1⟩) "Name" .text]
    let q : Query := {
      tables := [.base "People" none "p" (some ⟨1⟩), .base "Orders" none "o" (some ⟨2⟩)]
      projection := [total]
      orderBy := [⟨id, .asc⟩, ⟨total, .desc⟩]
      starred := true
      wildcardChoice := some "p" }
    ∃ p s', Edit.pushDown ⟨q, {}⟩ = .ok () ⟨p, s'⟩ ∧
      q.lifted p = [(id, .output "t" "Id" .int32), (total, .output "t" "Total" .int32)] ∧
      ∃ c, p.tables = [.nested c] ∧ ∀ r ∈ q.lifted p, ∀ x ∈ c.answering columns r.2, r.1.Holds x := by
  intro id total columns q
  obtain ⟨p, s', hp, hlifted, htables⟩ : ∃ p s', Edit.pushDown ⟨q, {}⟩ = .ok () ⟨p, s'⟩ ∧
      q.lifted p = [(id, .output "t" "Id" .int32), (total, .output "t" "Total" .int32)] ∧
      p.tables = [.nested { q with orderBy := [], name := some "t" }] := by
    simp only [q, id, total]
    exact ⟨_, _, rfl, rfl, rfl⟩
  obtain ⟨t, c, hc, -, -, -, hslots, -, -, hreferences⟩ := pushDown_references hp
  obtain rfl := Query.nested_eq_of_tables htables hc
  refine ⟨p, s', hp, hlifted, _, hc, fun r hr => ((hreferences r hr).2 columns).2 fun _ => ?_⟩
  rw [hlifted] at hr
  simp only [List.mem_cons, List.not_mem_nil, or_false] at hr
  rcases hr with rfl | rfl
  · constructor
    · rintro x hx hname
      simp only [columns, List.mem_cons, List.not_mem_nil, or_false] at hx
      rcases hx with rfl | rfl
      · exact .equal (by decide)
      · exact absurd hname (by decide +kernel)
    · rintro - slot hslot hname
      rw [← hslots] at hslot
      rw [List.mem_singleton.1 hslot] at hname
      exact absurd hname (by decide +kernel)
  · have hnone : ∀ x ∈ columns, x.sharesName (.output "t" "Total" .int32) = false := by decide +kernel
    refine ⟨fun x hx hname => ?_, fun hcovers => absurd hcovers (by decide)⟩
    rw [hnone x hx] at hname
    cases hname

/-- Beside the identifier of the people, which the wildcard outputs, the one of the orders gets a slot under the
same name: `SELECT t.* FROM (SELECT p.*, o.Id FROM …) AS t ORDER BY t.Id ASC, t.Id ASC`. -/
theorem pushDown_references_ambiguous :
    let id := Expr.column "p" (some ⟨1⟩) "Id" .int32
    let other := Expr.column "o" (some ⟨2⟩) "Id" .int32
    let q : Query := {
      tables := [.base "People" none "p" (some ⟨1⟩), .base "Orders" none "o" (some ⟨2⟩)]
      orderBy := [⟨id, .asc⟩, ⟨other, .asc⟩]
      starred := true
      wildcardChoice := some "p" }
    q.Composed ∧ ∃ p s', Edit.pushDown ⟨q, {}⟩ = .ok () ⟨p, s'⟩ ∧
      q.lifted p = [(id, .output "t" "Id" .int32), (other, .output "t" "Id" .int32)] ∧
      ∃ c, p.tables = [.nested c] ∧ c.projection = [other] ∧ ¬ id.Holds other := by
  intro id other q
  have hq : q.Composed := (Query.Composed.fresh none).apply (.appendTable (.base "People" none "p" (some ⟨1⟩)))
    |>.apply (.appendTable (.base "Orders" none "o" (some ⟨2⟩)))
    |>.apply (.chooseWildcard "p")
    |>.apply (.switchWildcard true)
    |>.apply (.orderAlso ⟨id, .asc⟩)
    |>.apply (.orderAlso ⟨other, .asc⟩)
  obtain ⟨p, s', hp, hlifted, htables⟩ : ∃ p s', Edit.pushDown ⟨q, {}⟩ = .ok () ⟨p, s'⟩ ∧
      q.lifted p = [(id, .output "t" "Id" .int32), (other, .output "t" "Id" .int32)] ∧
      p.tables = [.nested { q with projection := [other], orderBy := [], name := some "t" }] := by
    simp only [q, id, other]
    exact ⟨_, _, rfl, rfl, rfl⟩
  refine ⟨hq, p, s', hp, hlifted, _, htables, rfl, ?_⟩
  rintro (hequal | hstripped | hmade)
  · exact absurd hequal (by decide)
  · exact absurd hstripped (by decide)
  · exact absurd (congrArg Expr.owner hmade) (by decide)

end QueryTree
