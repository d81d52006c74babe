/-
What a wildcard over a nested query is expanded to. References to slots of the nested query are all good.
The memos, the one of the nested query as well as that of the enclosing one, name every column that has ever
been bound, and so also columns that the nested query does not output.
-/
import QueryTree.Proofs.Binding.References
import QueryTree.Proofs.Binding.Repeated
import QueryTree.Proofs.Paging.Columns
import QueryTree.Proofs.Projection

namespace QueryTree

/-- What equals a reference refers to the same output. -/
theorem Expr.output_of_equiv {a b : Expr} {t name : String} {type : DataType} (h : a.equiv b = true) :
    a.unnamed = .output t name type ↔ b.unnamed = .output t name type := by
  rw [← unnamed_equiv] at h
  have ha := isNamed_unnamed a
  generalize a.unnamed = u at h ha ⊢
  cases u with
  | named => cases ha
  | output =>
    rw [equiv] at h
    split at h
    · rename_i heq
      simp only [Bool.and_eq_true, beq_iff_eq] at h
      rw [heq, h.1.1, h.1.2, h.2]
    · cases h
  | _ =>
    rw [equiv] at h
    split at h
    · rename_i heq
      rw [heq]
      simp
    · cases h

namespace Query

/-! ## Columns that are projected one after the other -/

theorem project_column {e : Expr} (he : e.unnamed.isColumn = true) (q : Query) :
    (q.slotOf e ≠ none ∧ (q.project e false).2.projection = q.projection) ∨
    (q.slotOf e = none ∧ ∃ slot, slot.equiv e = true ∧ (q.project e false).2.projection = q.projection ++ [slot]) := by
  have hcases := project_slots e false q
  rw [stripCasts_of_column he] at hcases
  rcases hcases with ⟨hfound, hsame⟩ | ⟨hnone, -, slot, hvalue, hslots⟩
  · exact .inl ⟨by rw [hfound]; exact Option.some_ne_none _, hsame⟩
  · refine .inr ⟨hnone, slot, ?_, hslots⟩
    rw [← Expr.unnamed_equiv, hvalue, Expr.unnamed_equiv, Expr.equiv_self_of_column he]

/-- Each column without a slot gets one that equals it, and there are no more new slots. -/
theorem foldl_project_columns : ∀ {es : List Expr} {q : Query}, (∀ e ∈ es, e.unnamed.isColumn = true) →
    ∃ added, (es.foldl (fun q e => (q.project e false).2) q).projection = q.projection ++ added ∧
      (∀ slot ∈ added, ∃ e ∈ es, q.slotOf e = none ∧ slot.equiv e = true) ∧
      ∀ e ∈ es, q.slotOf e = none → ∃ slot ∈ added, slot.equiv e = true
  | [], q, _ => ⟨[], by simp⟩
  | e :: es, q, h => by
    obtain ⟨he, hes⟩ := List.forall_mem_cons.1 h
    have hfirst := project_column he q
    rw [List.foldl_cons]
    generalize (q.project e false).2 = r at hfirst ⊢
    obtain ⟨added, hslots, hnew, hall⟩ := foldl_project_columns (q := r) hes
    rcases hfirst with ⟨hfound, hsame⟩ | ⟨hnone, slot, hequal, hfirst⟩
    · simp only [slotOf_projection hsame] at hnew hall
      refine ⟨added, by rw [hslots, hsame], fun slot hslot => ?_, ?_⟩
      · obtain ⟨x, hx, hrest⟩ := hnew slot hslot
        exact ⟨x, List.mem_cons_of_mem _ hx, hrest⟩
      · exact List.forall_mem_cons.2 ⟨fun hnone => absurd hnone hfound, hall⟩
    · have hmissing : ∀ x, r.slotOf x = none ↔ q.slotOf x = none ∧ slot.equiv x = false := by
        intro x
        simp [slotOf, hfirst]
      refine ⟨slot :: added, by rw [hslots, hfirst, List.append_assoc, List.singleton_append], ?_, ?_⟩
      · refine List.forall_mem_cons.2 ⟨⟨e, List.mem_cons_self .., hnone, hequal⟩, fun x hx => ?_⟩
        obtain ⟨y, hy, hy', hxy⟩ := hnew x hx
        exact ⟨y, List.mem_cons_of_mem _ hy, ((hmissing y).1 hy').1, hxy⟩
      · refine List.forall_mem_cons.2 ⟨fun _ => ⟨slot, List.mem_cons_self .., hequal⟩, fun x hx hx' => ?_⟩
        -- It may be that the slot for the first column holds this one too.
        cases hsame : slot.equiv x with
        | true => exact ⟨slot, List.mem_cons_self .., hsame⟩
        | false =>
          obtain ⟨y, hy, hyx⟩ := hall x hx ((hmissing x).2 ⟨hx', hsame⟩)
          exact ⟨y, List.mem_cons_of_mem _ hy, hyx⟩

/-- What equal expressions have in common, all new slots have if each column has it or has had a slot. -/
theorem forall_projected_iff {P : Expr → Prop} (hP : ∀ {a b : Expr}, a.equiv b = true → (P a ↔ P b)) {es : List Expr}
    {q : Query} (h : ∀ e ∈ es, e.unnamed.isColumn = true) :
    ∃ added, (es.foldl (fun q e => (q.project e false).2) q).projection = q.projection ++ added ∧
      ((∀ slot ∈ added, P slot) ↔ ∀ e ∈ es, P e ∨ (q.slotOf e).isSome = true) := by
  obtain ⟨added, hslots, hnew, hall⟩ := foldl_project_columns (q := q) h
  refine ⟨added, hslots, fun hadded e he => ?_, fun hes slot hslot => ?_⟩
  · rcases hmissing : q.slotOf e with _ | i
    · obtain ⟨slot, hslot, hequal⟩ := hall e he hmissing
      exact .inl ((hP hequal).1 (hadded slot hslot))
    · exact .inr rfl
  · obtain ⟨e, he, hmissing, hequal⟩ := hnew slot hslot
    rcases hes e he with hgood | hfound
    · exact (hP hequal).2 hgood
    · rw [hmissing] at hfound
      cases hfound

/-! ## What a nested query outputs -/

/-- The query has a slot named `n`, or outputs a column of that name, once bound, through its wildcard. -/
def Yields (c : Query) (n : String) : Prop :=
  (∃ slot ∈ c.projection, slot.outputName = some n) ∨
    c.starred = true ∧ ∃ w ∈ c.wildcardTable, ∃ e ∈ c.memo.entries, e.address = some (w, n)

instance (c : Query) (n : String) : Decidable (c.Yields n) := inferInstanceAs (Decidable (_ ∨ _ ∧ _))

/-- Names aside, `e` refers to something that `c`, the nested query `t`, outputs. -/
def Supplies (t : String) (c : Query) (e : Expr) : Prop := ∃ n type, e.unnamed = .output t n type ∧ c.Yields n

theorem supplies_of_equiv {t : String} {c : Query} {a b : Expr} (h : a.equiv b = true) :
    c.Supplies t a ↔ c.Supplies t b := by
  simp only [Supplies, Expr.output_of_equiv h]

theorem supplies_reference {t : String} {c : Query} {name : String} {type : DataType} :
    c.Supplies t (.output t name type) ↔ c.Yields name := by
  constructor
  · rintro ⟨n, type', heq, hyields⟩
    cases heq
    exact hyields
  · exact fun hyields => ⟨name, type, rfl, hyields⟩

/-! ## Expansion -/

theorem expandStar_projects {t : String} {q c r : Query} (hs : q.starred = true) (ht : q.tables = [.nested c])
    (hn : c.name = some t) (h : expandStar q = .ok () r) :
    (∀ e ∈ c.outputs none, e.outputName.isSome = true) ∧ r.projection =
      ((references t (c.outputs none) ++ q.memo.entries).foldl (fun q e => (q.project e false).2) q).projection := by
  unfold expandStar expandStarTo at h
  rw [hs, ht] at h
  simp only [hn] at h
  rcases hl : (c.outputs none).mapM (·.lift t) with err | lifted
  · rw [hl] at h
    cases h
  · rw [hl] at h
    cases h
    obtain ⟨hnamed, rfl⟩ := mapM_lift_ok hl
    exact ⟨hnamed, rfl⟩

/-- References to slots are supplied, so that the columns of the memo remain. -/
theorem forall_references_iff {t : String} {q c : Query} (hnamed : ∀ e ∈ c.outputs none, e.outputName.isSome = true) :
    (∀ e ∈ references t (c.outputs none), c.Supplies t e ∨ (q.slotOf e).isSome = true) ↔
      (c.starred = true → ∀ e ∈ c.memo.entries, ∀ n ∈ e.outputName,
        c.Yields n ∨ (q.slotOf (.output t n e.type)).isSome = true) := by
  have hreference : ∀ e ∈ c.outputs none, ∀ n ∈ e.outputName,
      Expr.output t n e.type ∈ references t (c.outputs none) := by
    intro e he n hname
    refine List.mem_map.2 ⟨e, he, ?_⟩
    rw [Option.mem_def.1 hname, Option.getD_some]
  constructor
  · intro hall hstarred e he n hname
    have houtput : e ∈ c.outputs none := by
      rw [outputs, hstarred]
      exact List.mem_append_right _ he
    exact (hall _ (hreference e houtput n hname)).imp_left supplies_reference.1
  · intro hmemo x hx
    obtain ⟨e, he, rfl⟩ := List.mem_map.1 hx
    obtain ⟨n, hname⟩ := Option.isSome_iff_exists.1 (hnamed e he)
    rw [hname, Option.getD_some, supplies_reference]
    rcases List.mem_append.1 he with hslot | hbound
    · exact .inl (.inl ⟨e, hslot, hname⟩)
    · split at hbound
      · rename_i hstarred
        exact hmemo hstarred e hbound n hname
      · cases hbound

end Query

/-- All that a wildcard over the nested query `t` is expanded to refers to something that this outputs, exactly if
what is remembered does, in the nested query and in the enclosing one, or else has a slot already. -/
theorem expandStar_supplied_iff {t : String} {q c r : Query} (hq : q.Composed) (hs : q.starred = true)
    (ht : q.tables = [.nested c]) (hn : c.name = some t) (h : Query.expandStar q = .ok () r) :
    ∃ added, r.projection = q.projection ++ added ∧
      ((∀ e ∈ added, c.Supplies t e) ↔
        (c.starred = true → ∀ e ∈ c.memo.entries, ∀ n ∈ e.outputName,
          c.Yields n ∨ (q.slotOf (.output t n e.type)).isSome = true) ∧
        ∀ e ∈ q.memo.entries, c.Supplies t e ∨ (q.slotOf e).isSome = true) := by
  obtain ⟨hnamed, hprojection⟩ := Query.expandStar_projects hs ht hn h
  have hcolumns : ∀ e ∈ Query.references t (c.outputs none) ++ q.memo.entries, e.unnamed.isColumn = true := by
    refine List.forall_mem_append.2 ⟨fun e he => ?_, fun e he => Expr.isColumn_unnamed ((hq.sound q .root).memo e he)⟩
    obtain ⟨output, -, rfl⟩ := List.mem_map.1 he
    rfl
  obtain ⟨added, hslots, hiff⟩ :=
    Query.forall_projected_iff (P := c.Supplies t) (q := q) Query.supplies_of_equiv hcolumns
  refine ⟨added, hprojection.trans hslots, ?_⟩
  rw [hiff, List.forall_mem_append, Query.forall_references_iff hnamed]

theorem Query.composed_over_people_orders : ({
    tables := [.base "People" none "p" (some ⟨1⟩), .base "Orders" none "o" (some ⟨2⟩)]
    name := some "t"
    starred := true
    wildcardChoice := some "p" } : Query).Composed := by
  exact (Composed.fresh (some "t")).apply (.appendTable (.base "People" none "p" (some ⟨1⟩)))
    |>.apply (.appendTable (.base "Orders" none "o" (some ⟨2⟩)))
    |>.apply (.chooseWildcard "p")
    |>.apply (.switchWildcard true)

/-- The name of people goes through the wildcard below, the total of orders through a slot beside it. -/
theorem expandStar_supplied_beside_wildcard :
    let name := Expr.column "p" (some ⟨1⟩) "Name" .text
    let total := Expr.column "o" (some ⟨2⟩) "Total" .int32
    let c : Query := {
      tables := [.base "People" none "p" (some ⟨1⟩), .base "Orders" none "o" (some ⟨2⟩)]
      projection := [total]
      name := some "t"
      starred := true
      wildcardChoice := some "p"
      memo := { entries := [name, total] } }
    let q : Query := {
      tables := [.nested c]
      starred := true
      memo := { entries := [.output "t" "Name" .text, .output "t" "Total" .int32] } }
    q.Composed ∧ ∃ r, Query.expandStar q = .ok () r ∧
      r.projection = [.output "t" "Total" .int32, .output "t" "Name" .text] ∧
      ∀ e ∈ r.projection, c.Supplies "t" e := by
  intro name total c q
  have hc : ({ c with projection := [], memo := {} } : Query).Composed := Query.composed_over_people_orders
  have hq : q.Composed := by
    have hrun : q = (Operation.resolveColumn {} "Total" .int32 ⟨2⟩).run {}
        ((Operation.resolveColumn {} "Name" .text ⟨1⟩).run {}
          { tables := [.nested { c with projection := [], memo := {} }], starred := true }) := by rfl
    rw [hrun]
    exact (Query.Composed.fresh none).applyTo (.appendTable (.nested { c with projection := [], memo := {} })) hc
      |>.apply (.switchWildcard true)
      |>.apply (.resolveColumn {} "Name" .text ⟨1⟩)
      |>.apply (.resolveColumn {} "Total" .int32 ⟨2⟩)
  obtain ⟨r, hr, hslots⟩ : ∃ r, Query.expandStar q = .ok () r ∧
      r.projection = [.output "t" "Total" .int32, .output "t" "Name" .text] := ⟨_, rfl, rfl⟩
  obtain ⟨added, hadded, hiff⟩ := expandStar_supplied_iff hq rfl rfl rfl hr
  have hbelow : ∀ e ∈ c.memo.entries, ∀ n ∈ e.outputName,
      c.Yields n ∨ (q.slotOf (.output "t" n e.type)).isSome = true := by decide +kernel
  have hown : ∀ e ∈ q.memo.entries, c.Supplies "t" e ∨ (q.slotOf e).isSome = true := by
    intro e he
    simp only [q, List.mem_cons, List.not_mem_nil, or_false] at he
    rcases he with rfl | rfl
    · exact .inl (Query.supplies_reference.2 (by decide +kernel))
    · exact .inl (Query.supplies_reference.2 (by decide +kernel))
  refine ⟨hq, r, hr, hslots, ?_⟩
  rw [hadded]
  exact hiff.2 ⟨fun _ => hbelow, hown⟩

/-- The total of orders was bound below, where the wildcard stands for the people, and nothing outputs it:
`SELECT t.Total, t.Name FROM (SELECT p.* FROM …) AS t`. -/
theorem expandStar_beyond_wildcard :
    let name := Expr.column "p" (some ⟨1⟩) "Name" .text
    let total := Expr.column "o" (some ⟨2⟩) "Total" .int32
    let c : Query := {
      tables := [.base "People" none "p" (some ⟨1⟩), .base "Orders" none "o" (some ⟨2⟩)]
      name := some "t"
      starred := true
      wildcardChoice := some "p"
      memo := { entries := [total, name] } }
    let q : Query := { tables := [.nested c], starred := true }
    q.Composed ∧ ∃ r, Query.expandStar q = .ok () r ∧
      r.projection = [.output "t" "Total" .int32, .output "t" "Name" .text] ∧
      ¬ c.Supplies "t" (.output "t" "Total" .int32) := by
  intro name total c q
  have hstarred : ({ c with memo := {} } : Query).Composed := Query.composed_over_people_orders
  have hc : c.Composed := by
    have hrun : c = (Operation.resolveColumn {} "Name" .text ⟨1⟩).run {}
        ((Operation.resolveColumn {} "Total" .int32 ⟨2⟩).run {} { c with memo := {} }) := by rfl
    rw [hrun]
    exact hstarred.apply (.resolveColumn {} "Total" .int32 ⟨2⟩) |>.apply (.resolveColumn {} "Name" .text ⟨1⟩)
  have hq : q.Composed := (Query.Composed.fresh none).applyTo (.appendTable (.nested c)) hc
    |>.apply (.switchWildcard true)
  refine ⟨hq, _, rfl, rfl, fun hsupplied => ?_⟩
  exact absurd (Query.supplies_reference.1 hsupplied) (by decide +kernel)

end QueryTree
