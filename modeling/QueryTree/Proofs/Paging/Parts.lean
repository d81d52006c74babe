/-
What stands below a query whose paging has been replaced. Whatever stood below the query still does. New are only the
queries that the replacement makes, and all of these but the one on top are without order and members.
-/
import QueryTree.Proofs.Parts

namespace QueryTree

namespace Query

variable {P : Query → Prop} {t : String} {q r c n n' : Query} {added : List Expr} {rowNumber : Expr}

theorem Isolated.members (h : Isolated c n) (hc : c.members = []) : n.members = [] := by
  cases h with
  | plain _ => exact hc
  | distinct _ _ hmoved _ =>
    have hmembers := hmoved.members
    change List.Forall₂ _ c.members _ at hmembers
    rw [hc] at hmembers
    exact List.forall₂_nil_left_iff.1 hmembers

/-- The DISTINCT query has no page any more, and so no order. -/
theorem Isolated.over (h : Isolated c n) (hnew : ∀ x : Query, x.orderBy = [] → x.members = [] → x.Over P → P x)
    (hc : c.Over P) : n.Over P := by
  cases h with
  | plain _ => exact hc
  | @distinct u m e copies added slots _ hp hmoved hfixed =>
    have hunpaged : { c with limit := none, offset := none }.Over P :=
      { hc with
        limit := fun _ he => absurd he (Option.not_mem_none _)
        offset := fun _ he => absurd he (Option.not_mem_none _) }
    obtain ⟨e', htables, he, hm⟩ := hunpaged.pushedDown hp
    obtain rfl : e' = e := nested_eq_of_tables htables hmoved.passes.tables
    have hnested : P e' := hnew e' (hmoved.unordered rfl rfl) (by rw [hmoved.child]) he
    exact { hm hnested with projection := hfixed.below, limit := hc.limit, offset := hc.offset }

/-- The sort keys have moved into the row number. -/
theorem Numbered.over (h : Numbered t n n' added rowNumber)
    (hadded : ∀ slot ∈ added, slot.unnamed = .rowNumber (numberingKeys n.orderBy)) (hn : n.Over P) : n'.Over P := by
  have hkeys : ∀ slot ∈ added, slot.Below P := fun slot hs => by
    rw [← Expr.below_unnamed, hadded slot hs, Expr.below_rowNumber, Expr.below_hereditary.numberingKeys]
    exact hn.orderBy
  rw [h.eq]
  exact { hn with
    projection := List.forall_mem_append.2 ⟨hn.projection, hkeys⟩
    orderBy := fun _ hk => absurd hk List.not_mem_nil
    limit := fun _ he => absurd he (Option.not_mem_none _)
    offset := fun _ he => absurd he (Option.not_mem_none _) }

theorem Replacement.over (w : Replacement q r) (ho : q.offset.isSome = true)
    (hnew : ∀ x : Query, x.orderBy = [] → x.members = [] → x.Over P → P x) (hq : q.Over P) : r.Over P := by
  obtain ⟨c, htables, hc, hparent⟩ := hq.pushedDown w.pushed
  obtain rfl : c = w.child := nested_eq_of_tables htables w.moved.passes.tables
  have hnumbered : w.numbered.Over P := w.numbering.over w.numbersRows (w.isolated.over hnew hc)
  have hmembers : w.numbered.members = [] := by
    rw [w.numbering.eq]
    exact w.isolated.members (by rw [w.moved.child])
  have hnested : P w.numbered := hnew _ (by rw [w.numbering.eq]) hmembers hnumbered
  obtain ⟨hbelow, hslots, hpredicate, hkeys, hlimit, hoffset⟩ :=
    (Query.below_iff r).1 ((w.below_iff ho).2 ⟨hnested, hq.limit, hq.offset⟩)
  refine ⟨hbelow, hslots, hpredicate, hkeys, hlimit, hoffset, ?_, ?_⟩
  · rw [w.members]
    exact w.moved.below_members
  · rw [w.memo]
    exact fun _ he => absurd he List.not_mem_nil

end Query

end QueryTree
