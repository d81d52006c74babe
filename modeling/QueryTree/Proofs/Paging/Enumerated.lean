/-
Wildcards of DISTINCT queries that are paged. Such a wildcard is expanded twice, above the DISTINCT query and
above its page, and each time only the slots are left and the columns that are bound. What refers to such a query
is among these if each sort key that is a column of the wildcard has a slot or is bound.
-/
import QueryTree.Proofs.Composed
import QueryTree.Proofs.Paging.Settled
import QueryTree.Proofs.PushDown.LiftedNames

namespace QueryTree

namespace Query

/-! ## Columns by name -/

/-- The columns that a query has by name: its slots and those bound through its wildcard. -/
def bound (q : Query) : List Expr := q.projection ++ q.memo.entries

/-- All that is referred to is among the slots and the columns that are bound. Where columns are bound a push-down
adds no slot, which could clash with one of them. A query without a name stays in its order, so that the columns of
the wildcard by which it is sorted have slots or are bound. -/
structure Enumerated (q : Query) : Prop where
  bound : q.memo.entries ≠ [] → SlotsNamed q.projection ∧ Distinguished q.bound ∧
    ∀ e ∈ q.orderBy.map (·.expr) ++ q.members.map (·.2),
      q.wildcardCovers e = true ∨ e.Settled ∧ q.covers e = true
  sorted : q.name = none → ∀ k ∈ q.orderBy, q.wildcardCovers k.expr = true →
    q.covers k.expr = true ∨ ∃ b ∈ q.memo.entries, b.outputName = k.expr.unnamed.outputName

instance (q : Query) : Decidable q.Enumerated :=
  decidable_of_iff ((q.memo.entries ≠ [] → SlotsNamed q.projection ∧ Distinguished q.bound ∧
      ∀ e ∈ q.orderBy.map (·.expr) ++ q.members.map (·.2),
        q.wildcardCovers e = true ∨ e.Settled ∧ q.covers e = true) ∧
    (q.name = none → ∀ k ∈ q.orderBy, q.wildcardCovers k.expr = true →
      q.covers k.expr = true ∨ ∃ b ∈ q.memo.entries, b.outputName = k.expr.unnamed.outputName))
    ⟨fun ⟨hb, hs⟩ => ⟨hb, hs⟩, fun ⟨hb, hs⟩ => ⟨hb, hs⟩⟩

/-- What an enclosing query gets to know of a slot. -/
def heading (e : Expr) : Option String × DataType := (e.outputName, e.type)

theorem Distinguished.congr {es es' : List Expr} (h : es'.map heading = es.map heading) (hd : Distinguished es) :
    Distinguished es' := by
  have hback : ∀ a' ∈ es', ∃ a ∈ es, a.outputName = a'.outputName ∧ a.type = a'.type := fun a' ha' => by
    have hmem := List.mem_map_of_mem (f := heading) ha'
    rw [h] at hmem
    obtain ⟨a, ha, heq⟩ := List.mem_map.1 hmem
    exact ⟨a, ha, Prod.mk.inj heq⟩
  intro a' ha' b' hb' m hm n hn hclash
  obtain ⟨a, ha, hname, htype⟩ := hback a' ha'
  obtain ⟨b, hb, hname', htype'⟩ := hback b' hb'
  rw [← htype, ← htype']
  exact hd a ha b hb m (hname.trans hm) n (hname'.trans hn) hclash

/-! ## What a push-down leaves of it -/

variable {t : String} {q p c : Query} {copies added : List Expr}

/-- Where columns are bound and the query is paged, it moves down with its slots and its order. -/
theorem Enumerated.moved (h : q.Enumerated) (hwild : q.wild = true) (hmemo : q.memo.entries ≠ [])
    (ho : q.limit.isSome = true ∨ q.offset.isSome = true) (hp : q.pushedDown t = .ok p)
    (hmoved : Moved t q p c copies added) :
    c = { q with name := some t, starred := true, members := [] } := by
  obtain ⟨hnamed, -, hshown⟩ := h.bound hmemo
  have hadded : added = [] := hmoved.added_eq_nil_of_shown hp fun e he =>
    (hshown e he).symm.imp And.right fun hcovers => ⟨hwild, hcovers⟩
  rw [hmoved.child, hadded, List.append_nil, hmoved.copies.unchanged hnamed, hmoved.unchanged ho hadded, hwild]

/-! ## What a pass leaves of it -/

section Below

variable {q' : Query}

theorem bound_headings {σ : Type} {f : Query → StateM σ Query} {ok : σ → Prop} (h : PassedBelow f ok q q') :
    q'.bound.map heading = q.bound.map heading := by
  have hmemo : q'.memo = q.memo := by rw [h.same]
  have hslots : q'.projection.map heading = q.projection.map heading :=
    map_eq_of_forall₂ (fun _ _ he => Prod.ext he.outputName he.type) h.projection
  rw [bound, bound, hmemo, List.map_append, List.map_append, hslots]

variable {ok : PagingPass → Prop} (h : PassedBelow PagingPass.step ok q q')
include h

theorem PassedBelow.wildcardCovers {e e' : Expr} (he : e'.unnamed.owner = e.unnamed.owner) :
    q'.wildcardCovers e' = q.wildcardCovers e := by
  have htables : q'.tables.map Table.name = q.tables.map Table.name :=
    map_eq_of_forall₂ (fun _ _ ht => ht.name fun q p => step_name p q) h.tables
  have hchoice : q'.wildcardChoice = q.wildcardChoice := by rw [h.same]
  rw [wildcardCovers_eq, wildcardCovers_eq, he, wildcardTable_congr hchoice htables]

/-- What holds no work for the pass keeps its slot, as this holds none either. -/
theorem PassedBelow.covers {e : Expr} (hs : e.Settled) (hcovers : q.covers e = true) : q'.covers e = true := by
  have hslot {x : Expr} (hx : x.Settled) (hsome : (q.slotOf x).isSome = true) : (q'.slotOf x).isSome = true := by
    obtain ⟨i, hi⟩ := Option.isSome_iff_exists.1 hsome
    obtain ⟨slot, hi, hequal⟩ := slotOf_eq_some hi
    obtain ⟨slot', hmem, hpassed⟩ := forall₂_mem_left h.projection (List.mem_of_getElem? hi)
    rw [hpassed.eq_of_settled ((Expr.settled_of_equiv hequal).2 hx)] at hmem
    exact slotOf_isSome hmem hequal
  rw [Query.covers, Bool.or_eq_true] at hcovers ⊢
  exact hcovers.imp (hslot hs) (hslot ((Expr.below_stripCasts e).2 hs))

theorem PassedBelow.enumerated (hq : q.Enumerated) : q'.Enumerated := by
  have hmemo : q'.memo = q.memo := by rw [h.same]
  have hmembers : q'.members = q.members := by rw [h.same]
  have hname : q'.name = q.name := by rw [h.same]
  refine ⟨fun hne => ?_, fun hnone k' hk' hcovers => ?_⟩
  · obtain ⟨hnamed, hdistinguished, hshown⟩ := hq.bound (hmemo ▸ hne)
    have hslots : SlotsNamed q'.projection :=
      hnamed.of_shape (map_eq_of_forall₂ (fun _ _ he => Prod.ext he.outputName he.isStar) h.projection)
    -- Members are no matter of the pass.
    have hback : ∀ e' ∈ q'.orderBy.map (·.expr) ++ q'.members.map (·.2), ∃ e ∈ q.orderBy.map (·.expr) ++
        q.members.map (·.2), e'.unnamed.owner = e.unnamed.owner ∧ (e.Settled → e' = e) := fun e' he' => by
      rcases List.mem_append.1 he' with he' | he'
      · obtain ⟨e, he, hpassed⟩ := forall₂_mem_left h.orderBy.flip he'
        exact ⟨e, List.mem_append_left _ he, Expr.Passed.owner hpassed, Expr.Passed.eq_of_settled hpassed⟩
      · exact ⟨e', List.mem_append_right _ (hmembers ▸ he'), rfl, fun _ => rfl⟩
    refine ⟨hslots, hdistinguished.congr (bound_headings h), fun e' he' => ?_⟩
    obtain ⟨e, he, howner, hsame⟩ := hback e' he'
    rcases hshown e he with hcovers | ⟨hsettled, hcovers⟩
    · exact .inl (by rw [h.wildcardCovers howner, hcovers])
    · rw [hsame hsettled]
      exact .inr ⟨hsettled, h.covers hsettled hcovers⟩
  · obtain ⟨e, he, hpassed⟩ := forall₂_mem_left h.orderBy.flip (List.mem_map_of_mem hk')
    obtain ⟨k, hk, rfl⟩ := List.mem_map.1 he
    rw [h.wildcardCovers (Expr.Passed.owner hpassed)] at hcovers
    have hsettled : k.expr.Settled := Expr.below_of_isColumn (isColumn_of_wildcardCovers hcovers)
    rw [Expr.Passed.eq_of_settled hpassed hsettled, hmemo]
    exact (hq.sorted (hname ▸ hnone) k hk hcovers).imp_left (h.covers hsettled)

end Below

end Query

end QueryTree
