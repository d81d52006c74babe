/-
The laws of equality. Part by part, floating-point values are compared as numbers, so that a query with a
NaN differs from itself; structural equality compares them by their bits, but queries under EXISTS part by
part. Both are symmetric and transitive. An expression is structurally equal to itself, and found again
where it is a slot, exactly if no query below it has a NaN.
-/
import QueryTree.Proofs.Correlation.Search
import QueryTree.Proofs.Equality.Erased
import QueryTree.Proofs.Equality.Parts

namespace QueryTree

/-! ## Values -/

namespace Literal

theorem valueEq_symmAt (v : Literal) : SymmAt (fun v w => valueEq v w = true) v := by
  intro w h
  cases v with
  | double x =>
    cases w with
    | double y => 
      simp only [valueEq, Double.numEq, Bool.and_eq_true, Bool.or_eq_true, beq_iff_eq] at h ⊢
      obtain ⟨⟨hx, hy⟩, heq⟩ := h
      refine ⟨⟨hy, hx⟩, ?_⟩
      rcases heq with rfl | ⟨hx, hy⟩
      · exact .inl rfl
      · exact .inr ⟨hy, hx⟩
    | _ => simp [valueEq] at h
  | _ => cases w <;> simp_all [valueEq]

theorem valueEq_transAt (v : Literal) : TransAt (fun v w => valueEq v w = true) v := by
  intro w z h h'
  cases v with
  | double x =>
    cases w with
    | double y =>
      cases z with
      | double z =>
        simp only [valueEq, Double.numEq, Bool.and_eq_true, Bool.or_eq_true, beq_iff_eq] at h h' ⊢
        obtain ⟨⟨hx, -⟩, heq⟩ := h
        obtain ⟨⟨-, hz⟩, heq'⟩ := h'
        refine ⟨⟨hx, hz⟩, ?_⟩
        rcases heq with rfl | ⟨hzero, hzero'⟩
        · exact heq'
        · rcases heq' with rfl | ⟨-, hzero''⟩
          · exact .inr ⟨hzero, hzero'⟩
          · exact .inr ⟨hzero, hzero''⟩
      | _ => simp [valueEq] at h'
    | _ => simp [valueEq] at h
  | _ => cases w <;> simp_all [valueEq]

theorem valueEq_self_iff (v : Literal) : v.valueEq v = true ↔ ∀ x : Double, v = double x → x.isNaN = false := by
  cases v <;> simp [valueEq, Double.numEq]

end Literal

/-! ## Expressions -/

namespace Expr

variable {L : Literal → Literal → Prop} {R : Query → Query → Prop}

theorem Same.self_iff (a : Expr) : a.Same L R a ↔
    (∀ v ty, (constant v ty).PartOf a → L v v) ∧ ∀ c ∈ a.children, R c c := by
  induction a using induct with
  | h a ih =>
    have hhead : a.SameHead L R a ↔ (∀ v ty, constant v ty = a → L v v) ∧ ∀ q, a = exist q → R q q := by
      cases a <;> simp [SameHead]
    rw [same_iff, List.forall₂_same, hhead]
    constructor
    · rintro ⟨⟨hvalue, hquery⟩, hoperands⟩
      constructor
      · intro v ty hv
        rcases partOf_iff.1 hv with hself | ⟨x, hx, hv⟩
        · exact hvalue v ty hself
        · exact ((ih x hx).1 (hoperands x hx)).1 v ty hv
      · intro c hc
        rcases mem_children_iff.1 hc with hself | ⟨x, hx, hc⟩
        · exact hquery c hself
        · exact ((ih x hx).1 (hoperands x hx)).2 c hc
    · rintro ⟨hvalue, hquery⟩
      refine ⟨⟨fun v ty h => hvalue v ty (partOf_iff.2 (.inl h)),
        fun q h => hquery q (mem_children_iff.2 (.inl h))⟩, ?_⟩
      intro x hx
      refine (ih x hx).2 ⟨fun v ty h => hvalue v ty (.operand hx h), fun c h => hquery c ?_⟩
      exact mem_children_iff.2 (.inr ⟨x, hx, h⟩)

/-- None of its constants is a NaN. Queries under EXISTS are not looked at. -/
def NaNFree (e : Expr) : Prop := ∀ x ty, (constant (.double x) ty).PartOf e → x.isNaN = false

theorem beq_symmAt {e : Expr} (h : ∀ c ∈ e.children, SymmAt (fun q r => q.beq r = true) c) :
    SymmAt (fun a b => a.beq b = true) e := by
  intro b hb
  rw [beq_iff] at hb ⊢
  exact Same.symmAt Literal.valueEq_symmAt e h b hb

theorem beq_transAt {e : Expr} (h : ∀ c ∈ e.children, TransAt (fun q r => q.beq r = true) c) :
    TransAt (fun a b => a.beq b = true) e := by
  intro b c hb hc
  rw [beq_iff] at hb hc ⊢
  exact Same.transAt Literal.valueEq_transAt e h b c hb hc

theorem beq_self_iff (e : Expr) : e.beq e = true ↔ e.NaNFree ∧ e.Below fun c => c.beq c = true := by
  rw [beq_iff, Same.self_iff]
  refine and_congr_left fun _ => ?_
  constructor
  · intro h x ty hx
    exact (Literal.valueEq_self_iff _).1 (h _ ty hx) x rfl
  · intro h v ty hv
    refine (Literal.valueEq_self_iff v).2 ?_
    rintro x rfl
    exact h x ty hv

end Expr

/-! ## Tables -/

namespace Table

theorem beq_symmAt : ∀ {t : Table}, (∀ c ∈ t.children, SymmAt (fun q r => q.beq r = true) c) →
    SymmAt (fun t u => t.beq u = true) t
  | .base .., _, u, h => by cases u <;> simp_all [beq]
  | .join _ target condition, hbelow, u, h => by
    cases u with
    | join _ target' condition' =>
      obtain ⟨htarget, hcondition⟩ := List.forall_mem_append.1 hbelow
      simp only [beq, Bool.and_eq_true, beq_iff_eq, optionBeq_iff] at h ⊢
      obtain ⟨⟨hkind, ht⟩, hc⟩ := h
      refine ⟨⟨hkind.symm, beq_symmAt htarget _ ht⟩, SymmAt.forall₂ (fun e he => ?_) _ hc⟩
      exact Expr.beq_symmAt fun c hc => hcondition c (List.mem_flatMap_of_mem he hc)
    | _ => simp [beq] at h
  | .nested q, hbelow, u, h => by
    cases u with
    | nested r =>
      rw [beq] at h ⊢
      exact hbelow q (List.mem_singleton_self q) r h
    | _ => simp [beq] at h

theorem beq_transAt : ∀ {t : Table}, (∀ c ∈ t.children, TransAt (fun q r => q.beq r = true) c) →
    TransAt (fun t u => t.beq u = true) t
  | .base .., _, u, v, h, h' => by
    cases u with
    | base => cases v <;> simp_all [beq]
    | _ => simp [beq] at h
  | .join _ target condition, hbelow, u, v, h, h' => by
    cases u with
    | join _ target' condition' =>
      cases v with
      | join _ target'' condition'' =>
        obtain ⟨htarget, hcondition⟩ := List.forall_mem_append.1 hbelow
        simp only [beq, Bool.and_eq_true, beq_iff_eq, optionBeq_iff] at h h' ⊢
        obtain ⟨⟨hkind, ht⟩, hc⟩ := h
        obtain ⟨⟨hkind', ht'⟩, hc'⟩ := h'
        refine ⟨⟨hkind.trans hkind', beq_transAt htarget _ _ ht ht'⟩, TransAt.forall₂ (fun e he => ?_) _ _ hc hc'⟩
        exact Expr.beq_transAt fun c hc => hcondition c (List.mem_flatMap_of_mem he hc)
      | _ => simp [beq] at h'
    | _ => simp [beq] at h
  | .nested q, hbelow, u, v, h, h' => by
    cases u with
    | nested r =>
      cases v with
      | nested s =>
        rw [beq] at h h' ⊢
        exact hbelow q (List.mem_singleton_self q) r s h h'
      | _ => simp [beq] at h'
    | _ => simp [beq] at h

theorem beq_self_iff (t : Table) : t.beq t = true ↔
    (∀ e ∈ t.conditions, e.NaNFree) ∧ t.Below fun c => c.beq c = true := by
  cases t with
  | base => simp [beq, conditions, Below, children]
  | join _ target condition =>
    simp only [beq, Bool.and_eq_true, beq_self_eq_true, true_and, optionBeq_iff, List.forall₂_same, beq_self_iff target,
      conditions, Below, children, List.forall_mem_append, List.forall_mem_flatMap, Expr.beq_self_iff, Expr.Below,
      forall_and]
    tauto
  | nested q => simp [beq, conditions, Below, children]

end Table

/-! ## Members -/

section Members

variable {ms ns : List (String × Expr)}

theorem mem_of_lookup {m : String} {e : Expr} (h : ms.lookup m = some e) : (m, e) ∈ ms := by
  obtain ⟨before, after, rfl, -⟩ := List.lookup_eq_some_iff.1 h
  exact List.mem_append_right before List.mem_cons_self

theorem lookup_of_mem {α : Type} {ms : List (String × α)} (hkeys : (ms.map Prod.fst).Nodup) {m : String} {e : α}
    (h : (m, e) ∈ ms) : ms.lookup m = some e := by
  obtain ⟨before, after, rfl⟩ := List.append_of_mem h
  refine List.lookup_eq_some_iff.2 ⟨before, after, rfl, fun p hp => ?_⟩
  rw [List.map_append, List.map_cons, List.nodup_append] at hkeys
  rw [bne_iff_ne]
  exact (hkeys.2.2 p.1 (List.mem_map_of_mem hp) m List.mem_cons_self).symm

/-- As many members on the right, all that are on the left among them: these are all, and each is found
on the left. -/
theorem MembersEqual.symm (hkeys : (ms.map Prod.fst).Nodup) (hlength : ms.length = ns.length)
    (hms : ∀ m ∈ ms, SymmAt (fun a b => a.beq b = true) m.2)
    (h : MembersEqual ms ns) : MembersEqual ns ms := by
  have hsub : ms.map Prod.fst ⊆ ns.map Prod.fst := by
    intro key hkey
    obtain ⟨m, hm, rfl⟩ := List.mem_map.1 hkey
    obtain ⟨e, he, -⟩ := h m hm
    exact List.mem_map.2 ⟨_, mem_of_lookup he, rfl⟩
  have hperm : (ms.map Prod.fst).Perm (ns.map Prod.fst) :=
    (List.subperm_of_subset hkeys hsub).perm_of_length_le (by rw [List.length_map, List.length_map, hlength])
  intro n hn
  obtain ⟨m, hm, hkey⟩ := List.mem_map.1 (hperm.mem_iff.2 (List.mem_map_of_mem hn))
  obtain ⟨e, he, hequal⟩ := h m hm
  have hfound : ns.lookup n.1 = some n.2 := lookup_of_mem (hperm.nodup_iff.1 hkeys) hn
  rw [hkey, hfound, Option.some.injEq] at he
  subst he
  exact ⟨m.2, hkey ▸ lookup_of_mem hkeys hm, hms m hm _ hequal⟩

theorem MembersEqual.trans {os : List (String × Expr)} (hms : ∀ m ∈ ms, TransAt (fun a b => a.beq b = true) m.2)
    (h : MembersEqual ms ns) (h' : MembersEqual ns os) : MembersEqual ms os := by
  intro m hm
  obtain ⟨e, he, hequal⟩ := h m hm
  obtain ⟨e', he', hequal'⟩ := h' _ (mem_of_lookup he)
  exact ⟨e', he', hms m hm _ _ hequal hequal'⟩

theorem MembersEqual.self_iff (hkeys : (ms.map Prod.fst).Nodup) :
    MembersEqual ms ms ↔ ∀ m ∈ ms, m.2.beq m.2 = true := by
  refine forall₂_congr fun m hm => ?_
  rw [lookup_of_mem hkeys hm]
  simp

end Members

/-! ## Queries -/

namespace Query

/-- The members are a map: each name has one expression. -/
def Keyed (q : Query) : Prop := (q.members.map Prod.fst).Nodup

/-- None of the constants in a query is a NaN, wherever its expressions stand. Queries below it are not
looked at. -/
def NaNFree (q : Query) : Prop := ∀ e ∈ q.slots ++ q.members.map (·.2) ++ q.memo.entries, e.NaNFree

theorem forall_expressions_iff {q : Query} {P : Expr → Prop} :
    (∀ e ∈ q.slots ++ q.members.map (·.2) ++ q.memo.entries, P e) ↔ (∀ t ∈ q.tables, ∀ e ∈ t.conditions, P e) ∧
      (∀ es ∈ q.clauses, ∀ e ∈ es, P e) ∧ ∀ m ∈ q.members, P m.2 := by
  simp only [slots, exprs, clauses, List.forall_mem_append, List.forall_mem_flatMap, List.forall_mem_map,
    List.forall_mem_cons, List.not_mem_nil, false_imp_iff, implies_true, and_true]
  exact iff_of_eq (by ac_rfl)

variable {q r s : Query}

theorem PartsEqual.symm (hkeyed : q.Keyed) (hq : ∀ c ∈ q.parts, SymmAt (fun q r => q.beq r = true) c)
    (h : q.PartsEqual r) : r.PartsEqual q := by
  obtain ⟨htables, hclauses, hmembers⟩ := forall_parts_iff.1 hq
  constructor
  case tables => exact SymmAt.forall₂ (fun t ht => Table.beq_symmAt (htables t ht)) _ h.tables
  case clauses =>
    refine SymmAt.forall₂ (fun es hes => SymmAt.forall₂ fun e he => ?_) _ h.clauses
    exact Expr.beq_symmAt (hclauses es hes e he)
  case directions => exact h.directions.symm
  case flags => exact h.flags.symm
  case length => exact h.length.symm
  case members => exact h.members.symm hkeyed h.length fun m hm => Expr.beq_symmAt (hmembers m hm)

theorem PartsEqual.trans (hq : ∀ c ∈ q.parts, TransAt (fun q r => q.beq r = true) c) (h : q.PartsEqual r)
    (h' : r.PartsEqual s) : q.PartsEqual s := by
  obtain ⟨htables, hclauses, hmembers⟩ := forall_parts_iff.1 hq
  constructor
  case tables => exact TransAt.forall₂ (fun t ht => Table.beq_transAt (htables t ht)) _ _ h.tables h'.tables
  case clauses =>
    refine TransAt.forall₂ (fun es hes => TransAt.forall₂ fun e he => ?_) _ _ h.clauses h'.clauses
    exact Expr.beq_transAt (hclauses es hes e he)
  case directions => exact h.directions.trans h'.directions
  case flags => exact h.flags.trans h'.flags
  case length => exact h.length.trans h'.length
  case members => exact h.members.trans (fun m hm => Expr.beq_transAt (hmembers m hm)) h'.members

theorem PartsEqual.self_iff (hkeyed : q.Keyed) : q.PartsEqual q ↔ q.NaNFree ∧ ∀ c ∈ q.parts, c.beq c = true := by
  rw [partsEqual_iff, NaNFree, forall_expressions_iff, forall_parts_iff, MembersEqual.self_iff hkeyed]
  simp only [List.forall₂_same, Table.beq_self_iff, Expr.beq_self_iff, forall_and, true_and]
  tauto

theorem beq_symmAt (q : Query) : q.Everywhere Keyed → SymmAt (fun q r => q.beq r = true) q := by
  induction q using induct_parts with
  | h q ih =>
    intro hkeyed r h
    obtain ⟨hroot, hbelow⟩ := (everywhere_iff_parts q).1 hkeyed
    rw [beq_iff] at h ⊢
    exact h.symm hroot fun c hc => ih c hc (hbelow c hc)

theorem beq_transAt (q : Query) : TransAt (fun q r => q.beq r = true) q := by
  induction q using induct_parts with
  | h q ih =>
    intro r s h h'
    rw [beq_iff] at h h' ⊢
    exact h.trans ih h'

/-- A query equals itself exactly if neither it nor a query below it has a NaN. -/
theorem beq_self_iff (q : Query) : q.Everywhere Keyed → (q.beq q = true ↔ q.Everywhere NaNFree) := by
  induction q using induct_parts with
  | h q ih =>
    intro hkeyed
    obtain ⟨hroot, hbelow⟩ := (everywhere_iff_parts q).1 hkeyed
    rw [beq_iff, PartsEqual.self_iff hroot, everywhere_iff_parts]
    exact and_congr_right fun _ => forall₂_congr fun c hc => ih c hc (hbelow c hc)

end Query

/-! ## Structural equality -/

namespace Expr

variable {a b c : Expr}

theorem equiv_symm (ha : a.Below (Query.Everywhere Query.Keyed)) (h : a.equiv b = true) : b.equiv a = true := by
  rw [equiv_iff] at h ⊢
  refine Same.symmAt (fun _ _ h => h.symm) a.erased (fun q hq => ?_) b.erased h
  rw [children_erased] at hq
  exact q.beq_symmAt (ha q hq)

theorem equiv_trans (h : a.equiv b = true) (h' : b.equiv c = true) : a.equiv c = true := by
  rw [equiv_iff] at h h' ⊢
  exact Same.transAt (fun _ _ _ h h' => h.trans h') a.erased (fun q _ => q.beq_transAt) b.erased c.erased h h'

theorem equiv_self_iff (ha : a.Below (Query.Everywhere Query.Keyed)) :
    a.equiv a = true ↔ a.Below (Query.Everywhere Query.NaNFree) := by
  rw [equiv_iff, SameErased, Same.self_iff, children_erased]
  constructor
  · rintro ⟨-, h⟩ q hq
    exact (q.beq_self_iff (ha q hq)).1 (h q hq)
  · intro h
    exact ⟨fun _ _ _ => rfl, fun q hq => (q.beq_self_iff (ha q hq)).2 (h q hq)⟩

end Expr

/-- Among the slots, one of them is found exactly if it equals itself. -/
theorem Query.slotOf_isSome_iff {q : Query} {e : Expr} (he : e ∈ q.projection)
    (hkeyed : ∀ slot ∈ q.projection, slot.Below (Everywhere Keyed)) :
    (q.slotOf e).isSome = true ↔ e.equiv e = true := by
  rw [slotOf, List.findIdx?_isSome, List.any_eq_true]
  constructor
  · rintro ⟨slot, hslot, hequal⟩
    exact Expr.equiv_trans (Expr.equiv_symm (hkeyed slot hslot) hequal) hequal
  · intro h
    exact ⟨e, he, h⟩

/-- Structural equality is symmetric and transitive. An expression equals itself, and is found again where it
is a slot, exactly if no query under EXISTS in it has a NaN, at any depth. -/
theorem Expr.equivalence_iff_nanFree {a b : Expr} (ha : a.Below (Query.Everywhere Query.Keyed))
    (hb : b.Below (Query.Everywhere Query.Keyed)) :
    (a.equiv a = true ↔ a.Below (Query.Everywhere Query.NaNFree)) ∧ a.equiv b = b.equiv a ∧
      (∀ c : Expr, a.equiv b = true → b.equiv c = true → a.equiv c = true) ∧
      ∀ q : Query, a ∈ q.projection → (∀ slot ∈ q.projection, slot.Below (Query.Everywhere Query.Keyed)) →
        ((q.slotOf a).isSome = true ↔ a.Below (Query.Everywhere Query.NaNFree)) := by
  have hself := equiv_self_iff ha
  refine ⟨hself, ?_, fun c => equiv_trans, fun q hslot hkeyed => ?_⟩
  · rw [Bool.eq_iff_iff]
    exact ⟨equiv_symm ha, equiv_symm hb⟩
  · rw [Query.slotOf_isSome_iff hslot hkeyed, hself]

/-- `EXISTS (SELECT * FROM People AS p WHERE p.Score = 0.5)`, with a name and without. -/
theorem Expr.equivalence_iff_nanFree_half :
    let half := constant (.double ⟨0x3fe0000000000000⟩) ⟨.double, false⟩
    let people : Query := { tables := [.base "p" none "People" (some ⟨1⟩)],
                            predicate := some (.binary .equal (.column "p" (some ⟨1⟩) "Score" ⟨.double, false⟩) half) }
    let slots : Query := { projection := [exist people] }
    (exist people).equiv (exist people) = true ∧
      (exist people).equiv (named "listed" (exist people)) = true ∧ (slots.slotOf (exist people)).isSome = true := by
  intro half people slots
  have hleaf {P : Query → Prop} (h : P people) : (exist people).Below (Query.Everywhere P) := by
    intro c hc
    obtain rfl : c = people := List.mem_singleton.1 hc
    refine (Query.everywhere_iff_parts _).2 ⟨h, fun c hc => ?_⟩
    cases hc
  have hkeyed : (exist people).Below (Query.Everywhere Query.Keyed) := hleaf List.nodup_nil
  have hnumbers : (exist people).Below (Query.Everywhere Query.NaNFree) := by
    refine hleaf fun e he x type hx => ?_
    obtain rfl : e = _ := List.mem_singleton.1 he
    rcases partOf_iff.1 hx with hx | ⟨o, ho, hx⟩
    · cases hx
    · obtain rfl | rfl : o = column "p" (some ⟨1⟩) "Score" ⟨.double, false⟩ ∨ o = half := by simpa [operands] using ho
      · rcases partOf_iff.1 hx with hx | ⟨_, ho, _⟩
        · cases hx
        · cases ho
      · rcases partOf_iff.1 hx with hx | ⟨_, ho, _⟩
        · obtain ⟨hvalue, -⟩ := constant.inj hx
          cases hvalue
          decide
        · cases ho
  obtain ⟨hself, hcomm, -, hfound⟩ :=
    @equivalence_iff_nanFree (exist people) (named "listed" (exist people)) hkeyed hkeyed
  have hequal : (exist people).equiv (exist people) = true := hself.2 hnumbers
  refine ⟨hequal, ?_, (hfound slots List.mem_cons_self ?_).2 hnumbers⟩
  · rw [hcomm, equiv]
    exact hequal
  intro slot hslot
  rw [List.mem_singleton.1 hslot]
  exact hkeyed

/-- `EXISTS (SELECT * FROM People AS p WHERE p.Score = NaN)` differs from itself, and a query does not find
the slot that it is. -/
theorem Expr.exist_nan_differs :
    let nan := constant (.double ⟨0x7ff8000000000000⟩) ⟨.double, false⟩
    let people : Query := { tables := [.base "p" none "People" (some ⟨1⟩)],
                            predicate := some (.binary .equal (.column "p" (some ⟨1⟩) "Score" ⟨.double, false⟩) nan) }
    let slots : Query := { projection := [exist people] }
    (exist people).equiv (exist people) = false ∧ slots.slotOf (exist people) = none := by
  intro nan people slots
  have hdiffers : (exist people).equiv (exist people) = false := by
    have hnan : (⟨0x7ff8000000000000⟩ : Double).isNaN = true := by decide
    have hvalue : nan.beq nan = false := by simp [nan, beq, Literal.valueEq, Double.numEq, hnan]
    show people.beq people = false
    simp [people, Query.beq, optionBeq, beq, hvalue]
  refine ⟨hdiffers, ?_⟩
  simp [Query.slotOf, slots, hdiffers]

end QueryTree
