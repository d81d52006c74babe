/-
How the paging of a query becomes a row number, as a run that does not fail. Where nothing that the query
outputs, sorts by or has as a member is a wildcard, all that the nested query has to show has a name, and so
each lift and each expansion succeeds.
-/
import QueryTree.Proofs.Paging.Placement
import QueryTree.Proofs.PushDown.Refused

namespace QueryTree

namespace Expr

theorem isStar_of_numbersRows {e : Expr} (h : e.numbersRows = true) : e.isStar = false := by
  cases e <;> first | rfl | cases h

end Expr

namespace Query

/-! ## Queries without wildcards -/

/-- Whatever the query outputs, sorts by or has as a member can be referred to from outside. -/
structure Liftable (q : Query) : Prop where
  noStar : ∀ e ∈ q.projection ++ q.carried, e.unnamed.isStar = false
  memo : ∀ e ∈ q.memo.entries, e.isColumn = true

variable {t : String} {q p c : Query} {copies added : List Expr}

theorem Liftable.carried (h : q.Liftable) : ∀ e ∈ q.carried, e.unnamed.isStar = false :=
  fun e he => h.noStar e (List.mem_append_right _ he)

theorem Liftable.unpaged (h : q.Liftable) : { q with limit := none, offset := none }.Liftable := ⟨h.noStar, h.memo⟩

namespace Moved

/-- What is pushed down has no wildcard that the query has not had. -/
theorem liftable (h : Moved t q p c copies added) (hq : q.Liftable) : c.Liftable := by
  have hcopies : ∀ e ∈ copies, e.unnamed.isStar = false := by
    intro e he
    have hmem : e.unnamed ∈ q.projection.map Expr.unnamed := h.copies.values ▸ List.mem_map_of_mem he
    obtain ⟨slot, hslot, hun⟩ := List.mem_map.1 hmem
    rw [← hun]
    exact hq.noStar slot (List.mem_append_left _ hslot)
  have hadded : ∀ e ∈ added, e.unnamed.isStar = false := by
    intro e he
    obtain ⟨source, hsource, hun⟩ := h.sources e he
    -- No cast of a wildcard is dropped, so the source would be the wildcard itself.
    rw [← Bool.not_eq_true]
    intro hstar
    obtain ⟨table, htable⟩ := Expr.eq_star_of_isStar hstar
    have hsourceStar := hq.carried source hsource
    rw [Expr.unnamed_of_stripCasts (hun.symm.trans htable)] at hsourceStar
    cases hsourceStar
  constructor
  · rw [h.projection, Query.carried, show c.members = [] by rw [h.child]]
    intro e he
    simp only [List.map_nil, List.append_nil, List.mem_append, List.mem_map] at he
    rcases he with (he | he) | ⟨k, hk, rfl⟩
    · exact hcopies e he
    · exact hadded e he
    · rcases h.sortKeys k hk with hk | hk
      · exact hq.carried _ (List.mem_append_left _ (List.mem_map_of_mem hk))
      · exact hadded _ hk
  · rw [h.child]
    exact hq.memo

/-- All that the nested query shows has a name. -/
theorem outputs_named (h : Moved t q p c copies added) (hq : q.Liftable) (count : Option Nat) :
    ∀ e ∈ c.outputs count, e.outputName.isSome = true := by
  have hc := h.liftable hq
  have hslots : ∀ e ∈ c.projection, e.outputName.isSome = true := fun e he =>
    h.named.named e he (Expr.isStar_of_unnamed (hc.noStar e (List.mem_append_left _ he)))
  have hmemo : ∀ e ∈ c.memo.entries, e.outputName.isSome = true := fun e he =>
    outputName_of_column (Expr.isColumn_unnamed (hc.memo e he))
  unfold outputs
  refine List.forall_mem_append.2 ⟨fun e he => ?_, fun e he => ?_⟩
  · split at he
    · exact hslots e (List.mem_of_mem_take he)
    · exact hslots e he
  · split at he
    · exact hmemo e he
    · cases he

end Moved

/-! ## Expansion that succeeds -/

theorem mapM_lift_named : ∀ {slots : List Expr}, (∀ e ∈ slots, e.outputName.isSome = true) →
    slots.mapM (·.lift t) = .ok (references t slots)
  | [], _ => rfl
  | e :: slots, h => by
    obtain ⟨he, hslots⟩ := List.forall_mem_cons.1 h
    obtain ⟨name, hname⟩ := Option.isSome_iff_exists.1 he
    rw [List.mapM_cons, lift_of_outputName hname, mapM_lift_named hslots, references, references, List.map_cons, hname]
    rfl

theorem slotsNamed_foldl_project (es : List Expr) {q : Query} (hname : q.name.isSome = true)
    (h : SlotsNamed q.projection) : SlotsNamed (es.foldl (fun q e => (q.project e false).2) q).projection :=
  (foldl_project_keeps (K := fun r => r.name.isSome = true ∧ SlotsNamed r.projection) (E := fun _ => True)
    (fun {e r} _ hr => ⟨(congrArg Option.isSome (project_name e false r)).trans hr.1,
      slotsNamed_project e false hr.2 hr.1⟩) (fun _ _ => trivial) ⟨hname, h⟩).2

/-- Where all that the nested query shows has a name, the wildcard is expanded. -/
theorem expandStarTo_exists (count : Option Nat) (hp : Passes t p c) (hmemo : p.memo.entries = [])
    (hnamed : ∀ e ∈ c.outputs count, e.outputName.isSome = true) :
    ∃ slots, expandStarTo count p = .ok () { p with projection := slots, starred := false } ∧
      (p.name.isSome = true → SlotsNamed slots) := by
  have hrun : expandStarTo count p =
      .ok () { (references t (c.outputs count)).foldl (fun q e => (q.project e false).2) p with starred := false } := by
    unfold expandStarTo
    rw [hp.starred, hp.tables]
    simp only [hp.name, mapM_lift_named hnamed, hmemo, List.append_nil]
  obtain ⟨slots, -, heq⟩ := expandStarTo_ok hp hmemo hrun
  refine ⟨slots, hrun.trans (congrArg _ heq), fun hname => ?_⟩
  have hslots : ((references t (c.outputs count)).foldl (fun q e => (q.project e false).2) p).projection = slots :=
    congrArg projection heq
  rw [← hslots]
  exact slotsNamed_foldl_project _ hname (by rw [hp.projection]; exact slotsNamed_nil)

/-! ## Row numbers -/

/-- Below the query, which is not paged, there is one query alone. It is neither paged nor DISTINCT nor in any
order, and has the number of each row by the keys in a slot. -/
structure PagedByNumber (keys : List OrderKey) (r : Query) : Prop where
  limit : r.limit = none
  offset : r.offset = none
  nested : ∃ c, r.tables = [.nested c] ∧ c.limit = none ∧ c.offset = none ∧ c.distinct = false ∧ c.orderBy = [] ∧
    c.NumbersBy keys

end Query

/-- `n` is paged as `c` is, under the same name, but is not DISTINCT. -/
structure Query.PagesFor (n c : Query) : Prop where
  name : n.name = c.name
  distinct : n.distinct = false
  limit : n.limit = c.limit
  offset : n.offset = c.offset
  named : SlotsNamed n.projection

namespace Edit

/-! ## The query to be numbered -/

/-- Moves DISTINCT out of the way of a row number. It answers with the query whose rows are to be numbered. -/
def isolate : Edit Query := do
  if (← query).distinct then sinkDistinct
  query

/-- The query whose rows are numbered where the paging of a query is replaced, as it is just before. The wildcard
that is expanded in between is that of the enclosing query. -/
def rowsToNumber : Edit Query := do
  pushDown
  onNested isolate

variable {q c n : Query} {s : Session} {t column : String}

theorem pushDown_exists (hq : q.Liftable) (hstem : s.settings.subqueryStem ≠ "") :
    ∃ t p c copies added s', pushDown ⟨q, s⟩ = .ok () ⟨p, s'⟩ ∧ s'.settings = s.settings ∧
      Query.Moved t q p c copies added := by
  obtain ⟨t, s', ht, hsettings⟩ := createSubqueryName_exists hstem
  obtain ⟨p, hp⟩ := Query.pushedDown_of_noStar t hq.carried
  obtain ⟨c, copies, added, hmoved⟩ := Query.pushedDown_moved hp
  exact ⟨t, p, c, copies, added, s', pushDown_of_pushedDown ht hp, hsettings, hmoved⟩

theorem sinkDistinct_exists (hc : c.Liftable) (hname : c.name.isSome = true) (hstem : s.settings.subqueryStem ≠ "") :
    ∃ n s', sinkDistinct ⟨c, s⟩ = .ok () ⟨n, s'⟩ ∧ s'.settings = s.settings ∧ n.PagesFor c := by
  obtain ⟨u, m, e, copies, added, s', hpush, hsettings, hmoved⟩ := pushDown_exists (s := s) hc.unpaged hstem
  obtain ⟨slots, hexpand, hnamed⟩ := Query.expandStarTo_exists none hmoved.passes
    (by rw [hmoved.parent]) (hmoved.outputs_named hc.unpaged none)
  have hslots : SlotsNamed slots := hnamed (by rw [hmoved.parent]; exact hname)
  have hexpanded : onQuery Query.expandStar ⟨m, s'⟩ =
      .ok () ⟨{ m with projection := slots, starred := false }, s'⟩ := by
    unfold onQuery Query.expandStar
    rw [hexpand]
  refine ⟨{ m with projection := slots, starred := false, limit := c.limit, offset := c.offset }, s', ?_, hsettings,
    ⟨by rw [hmoved.parent], by rw [hmoved.parent], rfl, rfl, hslots⟩⟩
  unfold sinkDistinct
  rw [query_bind, bind_of_ok (startAfter_none _), bind_of_ok (limitTo_none _), bind_of_ok hpush, bind_of_ok hexpanded,
    bind_of_ok (startAfter_unpaged _ (by rw [hmoved.parent]) (by rw [hmoved.parent])),
    limitTo_unlimited _ (by rw [hmoved.parent])]

theorem isolate_exists (hc : c.Liftable) (hname : c.name.isSome = true) (hnamed : SlotsNamed c.projection)
    (hstem : s.settings.subqueryStem ≠ "") : ∃ n s', isolate ⟨c, s⟩ = .ok n ⟨n, s'⟩ ∧ s'.settings = s.settings ∧
      n.PagesFor c ∧ ∀ column, numberRows column ⟨c, s⟩ = numberRows column ⟨n, s'⟩ := by
  cases hd : c.distinct with
  | false =>
    refine ⟨c, s, ?_, rfl, ⟨rfl, hd, rfl, rfl, hnamed⟩, fun _ => rfl⟩
    unfold isolate
    rw [query_bind, hd, if_neg Bool.false_ne_true]
    rfl
  | true =>
    obtain ⟨n, s', hsink, hsettings, hpages⟩ := sinkDistinct_exists hc hname hstem
    refine ⟨n, s', ?_, hsettings, hpages, fun column => ?_⟩
    · unfold isolate
      rw [query_bind, hd, if_pos rfl, bind_of_ok hsink]
      rfl
    · -- Once DISTINCT is out of the way there is nothing left to isolate.
      unfold numberRows
      rw [query_bind, query_bind, hd, hpages.distinct, if_pos rfl, if_neg Bool.false_ne_true, bind_of_ok hsink]

/-! ## The row number -/

theorem numberRows_run {rowNumber slot : Expr} {c : Query} (hd : n.distinct = false) (hname : n.name = some t)
    (hslot : n.unordered.addSlot (.withName column (.rowNumber (numberingKeys n.orderBy))) = (slot, c))
    (hl : slot.lift t = .ok rowNumber) : numberRows column ⟨n, s⟩ =
      .ok (rowNumber.pagingBounds c.offset c.limit) ⟨{ c with offset := none, limit := none }, s⟩ := by
  have hadd : (modifyGet fun d : Draft =>
      ((d.query.addSlot (.withName column (.rowNumber (numberingKeys n.orderBy)))).1,
        { d with query := (d.query.addSlot (.withName column (.rowNumber (numberingKeys n.orderBy)))).2 }) : Edit Expr)
      ⟨n.unordered, s⟩ = .ok slot ⟨c, s⟩ := by
    show EStateM.Result.ok _ _ = _
    rw [hslot]
  have hunordered : modifyQuery Query.unordered ⟨n, s⟩ = .ok () ⟨n.unordered, s⟩ := rfl
  unfold numberingKeys at hadd
  unfold numberRows
  rw [query_bind, hd, if_neg Bool.false_ne_true]
  beta_reduce
  show (query >>= _) (⟨n, s⟩ : Draft) = _
  rw [query_bind]
  simp only [hname]
  rw [bind_of_ok hunordered, bind_of_ok hadd]
  simp only [hl]
  rfl

/-- In a nested query that is not DISTINCT the row number gets a slot, or has one already. -/
theorem numberRows_exists (column : String) (hd : n.distinct = false) (hname : n.name = some t)
    (hnamed : SlotsNamed n.projection) : ∃ n' added rowNumber,
      numberRows column ⟨n, s⟩ = .ok (rowNumber.pagingBounds n.offset n.limit) ⟨n', s⟩ ∧
      Query.Numbered t n n' added rowNumber := by
  generalize hslot : n.unordered.addSlot (.withName column (.rowNumber (numberingKeys n.orderBy))) = shown
  obtain ⟨slot, c⟩ := shown
  have hnamed' : n.unordered.name.isSome = true := by
    rw [Query.unordered, hname]
    rfl
  obtain ⟨hnumber, -⟩ := Query.addSlot_rowNumber column (numberingKeys n.orderBy) hnamed'
  obtain ⟨_, hgains, -, -, i, hi, -⟩ :=
    Query.addSlot_spec (.withName column (.rowNumber (numberingKeys n.orderBy))) n.unordered
  rw [hslot] at hnumber hgains hi
  obtain ⟨name, hslotName⟩ := Option.isSome_iff_exists.1 ((hgains.named hnamed' hnamed).named slot
    (List.mem_of_getElem? hi) (Expr.isStar_of_numbersRows hnumber.numbersRows))
  have hrun := numberRows_run (s := s) hd hname hslot (Query.lift_of_outputName hslotName)
  obtain ⟨u, added, rowNumber, hnumbered, -, hbounds⟩ := numberRows_ok hd hrun
  obtain rfl : u = t := Option.some.inj (hnumbered.name.symm.trans hname)
  rw [hbounds] at hrun
  exact ⟨_, added, rowNumber, hrun, hnumbered⟩

/-! ## The whole replacement -/

/-- What is left to do once the row number is in its place. -/
def boundBy (bounds : List Expr) : Edit Unit := do
  match Expr.conjunction bounds with
  | some condition => modifyQuery (Query.restrict condition)
  | none => pure ()
  if (← query).name.isSome then
    modifyQuery Query.unordered

theorem replacePaging_eq (column : String) : replacePaging column = (do
    let visible := (← query).projection.length
    pushDown
    let memo ← onNested (return (← query).memo.entries)
    if 0 < visible || !memo.isEmpty then
      onQuery (Query.expandStarTo (some visible))
    let bounds ← onNested (numberRows column)
    boundBy bounds) := rfl

/-- The bounds become the condition. Tables and paging stay as they are. -/
theorem boundBy_exists (bounds : List Expr) {p : Query} (hp : p.predicate = none) : ∃ r,
    boundBy bounds ⟨p, s⟩ = .ok () ⟨r, s⟩ ∧ r.tables = p.tables ∧ r.limit = p.limit ∧ r.offset = p.offset ∧
      r.predicate = Expr.conjunction bounds := by
  unfold boundBy
  rcases hcondition : Expr.conjunction bounds with _ | condition
  · simp only
    rw [query_bind]
    split
    · exact ⟨_, rfl, rfl, rfl, rfl, hp⟩
    · exact ⟨_, rfl, rfl, rfl, rfl, hp⟩
  · simp only
    have hrestrict : modifyQuery (Query.restrict condition) ⟨p, s⟩ = .ok () ⟨p.restrict condition, s⟩ := rfl
    rw [bind_of_ok hrestrict, query_bind]
    split
    · exact ⟨_, rfl, rfl, rfl, rfl, by simp [Query.unordered, Query.restrict, hp, Expr.conjoin]⟩
    · exact ⟨_, rfl, rfl, rfl, rfl, by simp [Query.restrict, hp, Expr.conjoin]⟩

theorem onNested_of_ok {α : Type} {act : Edit α} {a : α} {p : Query} {s' : Session} {c c' : Query}
    (hp : p.tables = [.nested c]) (h : act ⟨c, s⟩ = .ok a ⟨c', s'⟩) :
    onNested act ⟨p, s⟩ = .ok a ⟨{ p with tables := [.nested c'] }, s'⟩ := by
  unfold onNested
  simp only [hp, h]

/-- Whether the wildcard is expanded or not, the rest is done with the same nested query. -/
theorem replacePaging_of_pushDown {p : Query} {copies added : List Expr} {s' : Session} (column : String)
    (hq : q.Liftable) (hmoved : Query.Moved t q p c copies added) (hpush : pushDown ⟨q, s⟩ = .ok () ⟨p, s'⟩) :
    ∃ p', p'.tables = [.nested c] ∧ p'.predicate = none ∧ p'.limit = none ∧ p'.offset = none ∧
      replacePaging column ⟨q, s⟩ = (onNested (numberRows column) >>= boundBy) ⟨p', s'⟩ := by
  obtain ⟨hlimit, hoffset⟩ : p.limit = none ∧ p.offset = none := by
    rw [hmoved.parent]
    exact ⟨rfl, rfl⟩
  have hmemo : onNested (return (← query).memo.entries) ⟨p, s'⟩ = .ok c.memo.entries ⟨p, s'⟩ := by
    have hread : (return (← query).memo.entries : Edit (List Expr)) ⟨c, s'⟩ = .ok c.memo.entries ⟨c, s'⟩ := rfl
    rw [onNested_of_ok hmoved.passes.tables hread, ← hmoved.passes.tables]
    cases p
    rfl
  rw [replacePaging_eq, query_bind, bind_of_ok hpush, bind_of_ok hmemo]
  split
  · obtain ⟨slots, hexpand, -⟩ := Query.expandStarTo_exists (some q.projection.length) hmoved.passes
      (by rw [hmoved.parent]) (hmoved.outputs_named hq _)
    have hexpanded : onQuery (Query.expandStarTo (some q.projection.length)) ⟨p, s'⟩ =
        .ok () ⟨{ p with projection := slots, starred := false }, s'⟩ := by
      unfold onQuery
      rw [hexpand]
    rw [bind_of_ok hexpanded]
    exact ⟨{ p with projection := slots, starred := false }, hmoved.passes.tables, hmoved.passes.predicate, hlimit,
      hoffset, rfl⟩
  · exact ⟨p, hmoved.passes.tables, hmoved.passes.predicate, hlimit, hoffset, rfl⟩

/-- The paging of a query without wildcards is replaced. The nested query has the number of each row by the sort
keys that the rows had just before. -/
theorem replacePaging_exists (column : String) (hq : q.Liftable)
    (hstem : s.settings.subqueryStem ≠ "") : ∃ r s' rows d, replacePaging column ⟨q, s⟩ = .ok () ⟨r, s'⟩ ∧
      s'.settings = s.settings ∧ rowsToNumber ⟨q, s⟩ = .ok rows d ∧
      r.PagedByNumber (numberingKeys rows.orderBy) := by
  -- first the push-down, then DISTINCT on its own, then the numbers
  obtain ⟨t, p, c, copies, added, s₁, hpush, hsettings₁, hmoved⟩ := pushDown_exists hq hstem
  have hcname : c.name = some t := by rw [hmoved.child]
  obtain ⟨n, s₂, hisolate, hsettings₂, hpages, hsame⟩ :=
    isolate_exists (hmoved.liftable hq) (by rw [hcname]; rfl) hmoved.named (hsettings₁ ▸ hstem)
  obtain ⟨n', numbers, rowNumber, hrun, hnumbered⟩ :=
    numberRows_exists (s := s₂) column hpages.distinct (hpages.name.trans hcname) hpages.named
  have hpaging : n.limit = q.limit ∧ n.offset = q.offset := by
    rw [hpages.limit, hpages.offset, hmoved.child]
    exact ⟨rfl, rfl⟩
  rw [← hsame, hpaging.1, hpaging.2] at hrun
  obtain ⟨p', htables, hpredicate, hlimit, hoffset, hrest⟩ := replacePaging_of_pushDown column hq hmoved hpush
  obtain ⟨r, hbound, hrtables, hrlimit, hroffset, hrpredicate⟩ :=
    boundBy_exists (s := s₂) (rowNumber.pagingBounds q.offset q.limit) (p := { p' with tables := [.nested n'] })
      hpredicate
  rw [bind_of_ok (onNested_of_ok htables hrun), hbound] at hrest
  -- `rowsToNumber` goes the same way up to the numbers.
  have hrows : rowsToNumber ⟨q, s⟩ = .ok n ⟨{ p with tables := [.nested n] }, s₂⟩ := by
    unfold rowsToNumber
    rw [bind_of_ok hpush, onNested_of_ok hmoved.passes.tables hisolate]
  refine ⟨r, s₂, n, _, hrest, hsettings₂.trans hsettings₁, hrows,
    ⟨hrlimit.trans hlimit, hroffset.trans hoffset, n', hrtables, ?_⟩⟩
  have hnumber := hnumbered.numbersBy
  rw [hnumbered.eq] at hnumber ⊢
  exact ⟨rfl, rfl, hpages.distinct, rfl, hnumber⟩

end Edit
end QueryTree
