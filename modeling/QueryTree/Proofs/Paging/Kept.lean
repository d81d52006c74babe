/-
What stays in a tree when the paging of a query in it is replaced. All below the query stays below it, as it
is or as an equal query: a sort key whose value has a slot gives way to a reference to that slot. So what a
pass that succeeds has made of a query is still there when the queries further out have been treated too.
-/
import QueryTree.Proofs.Equality.Laws
import QueryTree.Proofs.Paging.Placement
import QueryTree.Proofs.PushDown.LiftedNames

namespace QueryTree

namespace Query

/-- What holds of a query holds of equal ones and of those right below it. -/
structure Inherited (P : Query → Prop) : Prop where
  equal : ∀ {c d : Query}, c.beq d = true → P c → P d
  below : ∀ {c : Query}, P c → c.Below P

/-- Whatever is below `q` is below `r` too, as it is or as an equal query. -/
def Keeps (r q : Query) : Prop := ∀ P : Query → Prop, Inherited P → r.Below P → q.Below P

variable {t : String} {q r p c n n' : Query}

theorem Keeps.refl (q : Query) : q.Keeps q := fun _ _ h => h

namespace Inherited

variable {P : Query → Prop} (hP : Inherited P)
include hP

theorem equiv {slot e : Expr} (h : slot.equiv e = true) (hs : slot.Below P) : e.Below P := by
  intro d hd
  obtain ⟨c, hc, hcd⟩ := forall₂_mem_left (Expr.children_of_equiv h).flip hd
  exact hP.equal hcd (hs c hc)

theorem holds {e slot : Expr} (h : e.Holds slot) (hs : slot.Below P) : e.Below P := by
  cases h with
  | equal hequal => exact hP.equiv hequal hs
  | stripped hequal => exact (Expr.below_stripCasts e).1 (hP.equiv hequal hs)
  | made hun => exact (Expr.below_stripCasts e).1 ((Expr.below_congr hun).1 hs)

theorem rowNumber {keys : List OrderKey} {slot : Expr} (h : slot.IsNumberBy keys) (hs : slot.Below P) :
    ∀ k ∈ keys, k.expr.Below P := by
  rw [← Expr.below_rowNumber]
  rcases h with hun | hequal
  · rwa [← hun, Expr.below_unnamed]
  · exact hP.equiv hequal hs

end Inherited

/-! ## Push-down -/

/-- What stands for `e` is a slot of its value, or else `e` is a column. -/
theorem Presents.below {e e' : Expr} {P : Query → Prop} (h : c.Presents t e e') (hP : Inherited P) (hc : c.Below P) :
    e.Below P := by
  cases h with
  | slot hmem _ hholds => exact hP.holds hholds (((below_iff c).1 hc).2.1 _ hmem)
  | wildcard _ hcovers _ => exact Expr.below_of_isColumn (isColumn_of_wildcardCovers hcovers)

theorem keeps_pushedDown (hp : q.pushedDown t = .ok p) (hc : p.tables = [.nested c]) : c.Keeps q := by
  intro P hP hbelow
  obtain ⟨child, copies, added, hmoved⟩ := pushedDown_moved hp
  obtain rfl : child = c := nested_eq_of_tables hmoved.passes.tables hc
  obtain ⟨child', htables, hpresents⟩ := pushedDown_presents hp
  obtain rfl : child' = child := nested_eq_of_tables htables hc
  have hkeys : List.Forall₂ (child'.Presents t) (q.orderBy.map (·.expr)) (p.orderBy.map (·.expr)) :=
    List.forall₂_iff_zip.2 ⟨by simpa using hmoved.keys.length_eq, fun h => hpresents _ (List.mem_append_left _ h)⟩
  -- The nested query may have lost the order, but it has a slot for each sort key that is no column.
  have hsorted : ∀ k ∈ q.orderBy, k.expr.Below P := by
    intro k hk
    obtain ⟨e', -, hpresent⟩ := forall₂_mem_left hkeys (List.mem_map_of_mem hk)
    exact hpresent.below hP hbelow
  rw [below_iff] at hbelow ⊢
  obtain ⟨htables, hslots, hpredicate, -, hpaging⟩ := hbelow
  have hcopies : ∀ e ∈ q.projection, e.Below P := by
    rw [← hmoved.copies.forall_iff Expr.below_hereditary]
    exact fun e he => hslots e (by rw [hmoved.projection]; exact List.mem_append_left _ he)
  rw [hmoved.child] at htables hpredicate hpaging
  exact ⟨htables, hcopies, hpredicate, hsorted, hpaging⟩

/-! ## Numbering -/

/-- All but the paging of a DISTINCT query is below the nested query, and the paging stays. -/
theorem Isolated.keeps (h : Isolated c n) : n.Keeps c := by
  cases h with
  | plain _ => exact .refl c
  | @distinct u m e copies added slots _ hpush hmoved _ =>
    intro P hP hbelow
    obtain ⟨htables, -, -, -, hpaging⟩ := (below_iff _).1 hbelow
    have he : P e := by
      change ∀ t ∈ m.tables, t.Below P at htables
      rw [hmoved.passes.tables] at htables
      exact htables _ (List.mem_singleton_self _) e (List.mem_singleton_self _)
    have hunpaged := keeps_pushedDown hpush hmoved.passes.tables P hP (hP.below he)
    obtain ⟨htables', hslots, hpredicate, hkeys, -⟩ := (below_iff _).1 hunpaged
    exact (below_iff c).2 ⟨htables', hslots, hpredicate, hkeys, hpaging⟩

/-- The sort keys are in the row number. -/
theorem Inherited.numbered {P : Query → Prop} (hP : Inherited P) {numbers : List Expr} {rowNumber : Expr}
    (h : Numbered t n n' numbers rowNumber) (hn' : n'.Below P)
    (hpaging : (∀ e ∈ n.limit, e.Below P) ∧ ∀ e ∈ n.offset, e.Below P) : n.Below P := by
  rw [below_iff] at hn' ⊢
  have hkeys : ∀ k ∈ n.orderBy, k.expr.Below P := by
    obtain ⟨slot, hslot, hnumber⟩ := h.numbersBy
    rw [← Expr.below_hereditary.numberingKeys]
    exact hP.rowNumber hnumber (hn'.2.1 slot hslot)
  rw [h.eq] at hn'
  exact ⟨hn'.1, fun e he => hn'.2.1 e (List.mem_append_left _ he), hn'.2.2.1, hkeys, hpaging⟩

/-- One operation back at a time: the bounds, the row number, DISTINCT, the push-down. -/
theorem Replacement.keeps (w : Replacement q r) (ho : q.offset.isSome = true) : r.Keeps q := by
  intro P hP hbelow
  obtain ⟨hnumbered, hpaging⟩ := (w.below_iff ho).1 hbelow
  have hsame : w.rows.limit = q.limit ∧ w.rows.offset = q.offset := by
    rw [w.isolated.limit, w.isolated.offset, w.moved.child]
    exact ⟨rfl, rfl⟩
  rw [← hsame.1, ← hsame.2] at hpaging
  have hrows := hP.numbered w.numbering (hP.below hnumbered) hpaging
  exact keeps_pushedDown w.pushed w.moved.passes.tables P hP (w.isolated.keeps P hP hrows)

end Query

theorem PagingPass.Treats.keeps {q r : Query} (h : Treats q r) : r.Keeps q := by
  cases h with
  | kept _ => exact .refl q
  | replaced hneeds hd =>
    obtain ⟨w⟩ := Edit.replacement_of_ok hd
    exact w.keeps (Query.needsNumbering_iff.1 hneeds).1

/-! ## What is left at the end -/

namespace Query

/-- The tree has the query in it, or an equal one. -/
def Has (q r : Query) : Prop := ∃ y ∈ q.queries, y = r ∨ y.beq r = true

theorem queries_of_beq (q : Query) :
    ∀ r : Query, q.beq r = true → ∀ y ∈ r.queries, ∃ z ∈ q.queries, z.beq y = true := by
  induction q using Query.induct with
  | h q ih =>
    intro r h y hy
    rcases mem_queries_iff.1 hy with rfl | ⟨d, hd, hy⟩
    · exact ⟨q, self_mem_queries q, h⟩
    · obtain ⟨c, hc, hcd⟩ := forall₂_mem_left (children_of_beq h).flip hd
      obtain ⟨z, hz, hzy⟩ := ih c hc d hcd y hy
      exact ⟨z, mem_queries_iff.2 (.inr ⟨c, hc, hz⟩), hzy⟩

theorem inherited_not_has (r : Query) : Inherited fun q => ¬ q.Has r where
  equal := by
    rintro c d h hc ⟨y, hy, heq⟩
    obtain ⟨z, hz, hzy⟩ := c.queries_of_beq d h y hy
    apply hc
    rcases heq with rfl | heq
    · exact ⟨z, hz, .inr hzy⟩
    · exact ⟨z, hz, .inr (z.beq_transAt y r hzy heq)⟩
  below := by
    rintro c hc d hd ⟨y, hy, heq⟩
    exact hc ⟨y, mem_queries_iff.2 (.inr ⟨d, hd, hy⟩), heq⟩

theorem mem_mapM {σ α β : Type} {g : α → StateM σ β} {before : List α} {x : α} (after : List α) (s : σ) :
    (g x (before.mapM g s).2).1 ∈ ((before ++ x :: after).mapM g s).1 := by
  rw [List.mapM_append, List.mapM_cons]
  exact List.mem_append_right _ (List.mem_cons_self ..)

open PagingPass (Goes step)

/-- What a step has made of a query, the later ones leave in the tree. -/
theorem Visits.has {x : Query} {p p₀ : PagingPass} (hx : Visits step x p q p₀) (h : (q.mapQueriesM step p₀).2.Goes) :
    (q.mapQueriesM step p₀).1.Has (step x p).1 := by
  induction hx with
  | root hbelow =>
    rw [mapQueriesM_run, hbelow]
    exact ⟨_, self_mem_queries _, .inl rfl⟩
  | @child q c before after p₀ hchildren _ ih =>
    have hmem : (c.mapQueriesM step (before.mapM (mapQueriesM step) p₀).2).1 ∈ (q.mapBelowM step p₀).1.children := by
      have hmapped : (q.mapBelowM step p₀).1.children = (q.children.mapM (mapQueriesM step) p₀).1 :=
        congrArg Prod.fst (congrFun (children_mapBelowM step q) p₀)
      rw [hmapped, hchildren]
      exact mem_mapM _ p₀
    have hc := ih (ok_child PagingPass.goes_back hchildren h)
    rw [mapQueriesM_run] at h ⊢
    -- If the query were not left in the tree, it would not have been there before the last step either.
    by_contra hnot
    have hinherited := inherited_not_has (step x p).1
    have hkeeps := (PagingPass.step_cases h).2.keeps _ hinherited (hinherited.below hnot)
    exact hkeeps _ hmem hc

end Query

end QueryTree
