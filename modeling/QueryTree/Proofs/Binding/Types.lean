/-
Static types against structural equality. Equal expressions have one type, so that a slot or an entry of a memo
can take the place of what it equals, in this query and in references to it from the enclosing one. Nothing but
the idle casts that projection drops comes between the type of a value and the type of the reference to it.
-/
import QueryTree.Proofs.Failure
import QueryTree.Proofs.Projection
import QueryTree.Proofs.PushDown.LiftedNames

namespace QueryTree

namespace Expr

theorem type_of_unnamed_eq {a b : Expr} (h : a.unnamed = b.unnamed) : a.type = b.type := by
  rw [← type_unnamed a, h, type_unnamed]

/-- A reference has the type of the slot it refers to. -/
theorem lift_type {e e' : Expr} {t : String} (h : e.lift t = .ok e') : e'.type = e.type := by
  obtain ⟨name, -, rfl⟩ := Query.lift_ok h
  rfl

end Expr

theorem StarMemo.remember_type (threshold : Nat) (e : Expr) (memo : StarMemo Expr) :
    (memo.remember threshold e).1.type = e.type := by
  rcases StarMemo.remember_cases threshold e memo with ⟨entry, -, hequal, hr⟩ | ⟨hr, -⟩
  · rw [hr]
    exact Expr.type_of_equiv hequal
  · rw [hr]

namespace OrderKey

theorem RefersTo.type {slots : List Expr} {k k' : OrderKey} (h : k.RefersTo slots k') : k'.expr.type = k.expr.type := by
  rcases h with rfl | ⟨-, hequal, -⟩
  · rfl
  · exact (Expr.type_of_equiv hequal).symm

end OrderKey

namespace Query

/-! ## Slots and what stands for them -/

theorem standIn_type (threshold : Nat) (e : Expr) (q : Query) : (q.standIn threshold e).1.type = e.type := by
  unfold standIn
  split
  · exact q.memo.remember_type threshold e
  · change ((q.projection.find? (·.equiv e)).getD e).type = e.type
    rcases hf : q.projection.find? (·.equiv e) with _ | slot
    · rw [hf, Option.getD_none]
    · have hequal : slot.equiv e = true := by simpa using List.find?_some hf
      rw [hf, Option.getD_some]
      exact Expr.type_of_equiv hequal

/-- The slot of a value, old or new, has the type of the value without its idle casts. -/
theorem project_type (e : Expr) (explicit : Bool) (q : Query) : ∃ slot,
    (q.project e explicit).2.projection[(q.project e explicit).1]? = some slot ∧ slot.type = e.stripCasts.type := by
  rcases project_slots e explicit q with ⟨hfound, hslots⟩ | ⟨-, hlength, slot, hvalue, hslots⟩
  · obtain ⟨slot, hi, hequal⟩ := slotOf_eq_some hfound
    exact ⟨slot, by rw [hslots, hi], Expr.type_of_equiv hequal⟩
  · exact ⟨slot, by rw [hslots, hlength, List.getElem?_concat_length], Expr.type_of_unnamed_eq hvalue⟩

/-- A sort key that comes to refer to a new slot keeps its type. -/
theorem project_keyTypes (e : Expr) (explicit : Bool) (q : Query) :
    List.Forall₂ (fun k k' => k'.expr.type = k.expr.type) q.orderBy (q.project e explicit).2.orderBy :=
  (q.project_keys e explicit).imp fun _ _ hk => hk.type

theorem addSlot_type (e : Expr) (q : Query) : (q.addSlot e).1.type = e.stripCasts.type := by
  obtain ⟨slot, hi, htype⟩ := q.project_type e false
  change ((q.project e false).2.projection.getD (q.project e false).1 e).type = _
  rw [List.getD_eq_getElem?_getD, hi, Option.getD_some, htype]

/-! ## References from the enclosing query -/

section Lifting

variable {t : String} {wildcard : Option String} {e e' : Expr} {c c' : Query}

/-- Idle casts are lost where a slot is new, but not where one is there already. -/
theorem showSlot_type (wildcard : Option String) (e : Expr) (c : Query) :
    (c.showSlot wildcard e).1.type = e.type ∨ c.slotOf e = none ∧
      (c.showSlot wildcard e).1.type = e.stripCasts.type := by
  unfold showSlot
  rcases hs : c.slotOf e with _ | i
  · simp only
    split
    · exact .inl (Expr.type_unnamed e)
    · exact .inr ⟨trivial, c.addSlot_type e⟩
  · obtain ⟨slot, hi, hequal⟩ := slotOf_eq_some hs
    simp only [List.getD_eq_getElem?_getD, hi, Option.getD_some]
    exact .inl (Expr.type_of_equiv hequal)

theorem liftThrough_type (h : (liftThrough t wildcard e).run c = .ok (e', c')) :
    e'.type = e.type ∨ c.slotOf e = none ∧ e'.type = e.stripCasts.type := by
  rw [Expr.lift_type (shown_of_liftThrough h).1]
  exact c.showSlot_type wildcard e

/-- What has a slot still has one when something is lifted. -/
theorem slotOf_eq_none_of_liftThrough {x : Expr} (h : (liftThrough t wildcard e).run c = .ok (e', c'))
    (hx : c'.slotOf x = none) : c.slotOf x = none := by
  obtain ⟨added, hgains, -⟩ := liftThrough_ok h
  rw [slotOf, hgains.projection, List.findIdx?_append, Option.or_eq_none_iff] at hx
  exact hx.1

/-- What a push-down lifts keeps its type if a slot has it, and else loses its idle casts at most. -/
theorem pushedDown_types {q p : Query} (h : q.pushedDown t = .ok p) : ∀ r ∈ q.lifted p,
    r.2.type = r.1.type ∨ q.slotOf r.1 = none ∧ r.2.type = r.1.stripCasts.type := by
  -- What has a slot at first has one in the nested query at all times.
  have hfirst : ∀ x, (q.firstChild t).slotOf x = none → q.slotOf x = none := by
    obtain ⟨copies, hcopies, heq⟩ := firstChild_spec t q
    intro x hx
    rwa [heq, slotOf_congr (r := q) hcopies.values] at hx
  obtain ⟨-, -, -, -, -, htypes⟩ := pushedDown_related (T := fun c => ∀ x, c.slotOf x = none → q.slotOf x = none)
    (P := fun _ e e' => e'.type = e.type ∨ q.slotOf e = none ∧ e'.type = e.stripCasts.type)
    (fun _ _ htype => htype)
    (fun e _ _ _ _ hc hrun =>
      ⟨fun x hx => hc x (slotOf_eq_none_of_liftThrough hrun hx), (liftThrough_type hrun).imp_right (.imp_left (hc e))⟩)
    hfirst h
  exact htypes

theorem expose_type {name : String} {q q' : Query} (he : e.unnamed.isColumn = true)
    (h : q.expose name e = .ok e' q') : e'.type = e.type := by
  unfold expose at h
  generalize hshown : (if q.starred && q.wildcardCovers e then (e, q) else q.addSlot e) = shown at h
  have htype : shown.1.type = e.type := by
    rw [← hshown]
    split
    · rfl
    · rw [addSlot_type, stripCasts_of_column he]
  rcases shown with ⟨slot, r⟩
  simp only at h
  rcases hl : slot.lift name with err | lifted
  · rw [hl] at h
    cases h
  · rw [hl] at h
    cases h
    rw [Expr.lift_type hl, htype]

end Lifting

end Query

/-! ## Columns that are bound -/

section Bind

variable (threshold : Nat) (column : String) (type : DataType) (source : Source)

theorem Query.bind_type_of_tables {q : Query}
    (hfirst : ∀ e ts, bindFirst threshold column type source q.tables = .ok e ts → e.type = type) :
    ∀ e q', q.bind threshold column type source = .ok e q' → e.type = type := by
  intro e q' h
  rw [Query.bind_eq] at h
  rcases hb : bindFirst threshold column type source q.tables with ⟨bound, tables⟩ | ⟨err, tables⟩
  · rw [hb] at h
    cases h
    rw [Query.standIn_type, hfirst bound tables hb]
  · rw [hb] at h
    cases h

mutual

theorem Table.bind_type : ∀ (t : Table) (e : Expr) (t' : Table),
    t.bind threshold column type source = .ok e t' → e.type = type
  | .base .., _, _, h => by
    cases h
    rfl
  | .join _ target _, e, _, h => by
    obtain ⟨target', ht, -⟩ := mapState_ok h
    exact Table.bind_type target e target' ht
  | .nested q, e, t', h => by
    rw [Table.bind] at h
    rcases hname : q.name with _ | name
    · rw [hname] at h
      cases h
    rw [hname] at h
    obtain ⟨q'', h, -⟩ := mapState_ok h
    rcases hb : q.bind threshold column type source with ⟨bound, q'⟩ | ⟨err, q'⟩
    · rw [hb] at h
      -- A column has no casts, so none is lost where the nested query gains a slot for it.
      have hcolumn := (Query.grows_bind threshold column type source q).2 bound q' hb
      rw [Query.expose_type hcolumn h]
      exact Query.bind_type q bound q' hb
    · rw [hb] at h
      cases h

theorem Query.bind_type : ∀ (q : Query) (e : Expr) (q' : Query),
    q.bind threshold column type source = .ok e q' → e.type = type
  | ⟨tables, _, _, _, _, _, _, _, _, _, _, _⟩ =>
    Query.bind_type_of_tables threshold column type source (bindFirst_type tables)

theorem bindFirst_type : ∀ (ts : List Table) (e : Expr) (ts' : List Table),
    bindFirst threshold column type source ts = .ok e ts' → e.type = type
  | [], _, _, h => by cases h
  | t :: ts, e, _, h => by
    rw [bindFirst] at h
    split at h
    · obtain ⟨t', ht, -⟩ := mapState_ok h
      exact Table.bind_type t e t' ht
    · obtain ⟨ts', hts, -⟩ := mapState_ok h
      exact bindFirst_type ts e ts' hts

end

end Bind

theorem Query.resolveColumn_type {settings : Settings} {column : String} {type : DataType} {source : Source}
    {q q' : Query} {e : Expr} (h : resolveColumn settings column type source q = .ok e q') : e.type = type := by
  unfold resolveColumn at h
  split at h
  · cases h
  · exact Query.bind_type _ column type source q e q' h

/-- Structurally equal expressions have one type, and whether NULL is allowed is part of it. So a reference has the
type of what its slot equals, and what stands for an expression in a query, be it a slot or an entry of the memo,
has the type of the expression. -/
theorem Query.types_of_equals (settings : Settings) (q : Query) :
    (∀ a b : Expr, a.equiv b = true → a.type = b.type) ∧
    (∀ (slot e e' : Expr) (t : String), slot.equiv e = true → slot.lift t = .ok e' → e'.type = e.type) ∧
    (∀ e : Expr, (q.standIn settings.indexThreshold e).1.type = e.type) ∧
    (∀ (e : Expr) (explicit : Bool),
      (∃ slot, (q.project e explicit).2.projection[(q.project e explicit).1]? = some slot ∧
        slot.type = e.stripCasts.type) ∧
      List.Forall₂ (fun k k' => k'.expr.type = k.expr.type) q.orderBy (q.project e explicit).2.orderBy) ∧
    (∀ (t : String) (p : Query), q.pushedDown t = .ok p → ∀ r ∈ q.lifted p,
      r.2.type = r.1.type ∨ q.slotOf r.1 = none ∧ r.2.type = r.1.stripCasts.type) ∧
    ∀ (column : String) (type : DataType) (source : Source) (e : Expr) (q' : Query),
      resolveColumn settings column type source q = .ok e q' → e.type = type := by
  refine ⟨fun a b => Expr.type_of_equiv, fun slot e e' t hequal hlift => ?_, fun e => q.standIn_type _ e,
    fun e explicit => ⟨q.project_type e explicit, q.project_keyTypes e explicit⟩, fun t p => pushedDown_types,
    fun column type source e q' => resolveColumn_type⟩
  rw [Expr.lift_type hlift, Expr.type_of_equiv hequal]

/-- A column that can be NULL is still one behind the name of its slot, where the sort key of a query that is pushed
down refers to it. -/
theorem Query.types_of_equals_nullable :
    let age := Expr.column "p" (some ⟨1⟩) "Age" ⟨.int32, true⟩
    let slot := Expr.named "years" age
    let q : Query := {
      tables := [.base "People" none "p" (some ⟨1⟩)]
      projection := [slot]
      orderBy := [⟨age, .asc⟩] }
    slot.equiv age = true ∧ slot.type = age.type ∧
      (∃ e', slot.lift "t" = .ok e' ∧ e'.type = age.type) ∧
      (∃ p, q.pushedDown "t" = .ok p ∧ ∀ r ∈ q.lifted p, r.2.type = age.type) ∧
      ∃ e q', resolveColumn {} "Age" ⟨.int32, true⟩ ⟨1⟩ q = .ok e q' ∧ e.type = ⟨.int32, true⟩ := by
  intro age slot q
  obtain ⟨hequals, hlifts, -, -, hpushed, hbound⟩ := types_of_equals {} q
  have hequal : slot.equiv age = true := by decide
  have hp : q.pushedDown "t" = .ok {
      tables := [.nested { q with name := some "t", orderBy := [] }]
      orderBy := [⟨.output "t" "years" ⟨.int32, true⟩, .asc⟩]
      starred := true
      wildcardChoice := some "t" } := rfl
  refine ⟨hequal, hequals slot age hequal, ⟨_, rfl, hlifts slot age _ "t" hequal rfl⟩, ⟨_, hp, fun r hr => ?_⟩,
    ⟨_, _, rfl, hbound "Age" _ ⟨1⟩ _ _ rfl⟩⟩
  obtain rfl := List.mem_singleton.1 hr
  exact (hpushed "t" _ hp _ hr).resolve_right fun ⟨hnone, _⟩ => absurd hnone (by decide)

end QueryTree
