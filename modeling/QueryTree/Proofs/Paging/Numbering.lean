/-
What the operations of the paging pass make of a query: a nested query whose rows are numbered in the
order of its sort keys and no longer paged, with DISTINCT one level further down, and the bounds on
the row number.
-/
import QueryTree.Paging
import QueryTree.Proofs.Equality.Erased
import QueryTree.Proofs.Paging.Columns

namespace QueryTree

/-- The keys that rows are numbered by. Without sort keys any order will do. -/
def numberingKeys (keys : List OrderKey) : List OrderKey :=
  let keys := keys.map fun key => { key with expr := key.expr.unnamed }
  if keys.isEmpty then [⟨Expr.int 1, .asc⟩] else keys

namespace Expr

/-- Under its name, if it has one, the expression equals the row number by the keys. -/
def IsNumberBy (keys : List OrderKey) (e : Expr) : Prop :=
  e.unnamed = .rowNumber keys ∨ e.equiv (.rowNumber keys) = true

theorem IsNumberBy.numbersRows {keys : List OrderKey} {e : Expr} (h : e.IsNumberBy keys) : e.numbersRows = true := by
  rcases h with hun | hequal
  · rw [Expr.numbersRows, hun]
  · exact numbersRows_of_equiv hequal rfl

end Expr

namespace Query

/-- A slot, under whatever name, holds the number of each row by the keys. -/
def NumbersBy (keys : List OrderKey) (c : Query) : Prop := ∃ slot ∈ c.projection, slot.IsNumberBy keys

/-- `c'` is `c` without paging and order, with the number of each row among its columns: `rowNumber`
refers to it by the name `t`. -/
structure Numbered (t : String) (c c' : Query) (added : List Expr) (rowNumber : Expr) : Prop where
  name : c.name = some t
  eq : c' = { c with projection := c.projection ++ added, orderBy := [], limit := none, offset := none }
  named : SlotsNamed c.projection → SlotsNamed c'.projection
  addedNamed : ∀ slot ∈ added, slot.outputName.isSome = true
  column : LiftedTo t c' (.rowNumber (numberingKeys c.orderBy)) rowNumber
  slot : ∃ slot ∈ c'.projection, slot.IsNumberBy (numberingKeys c.orderBy) ∧ ∃ name, slot.outputName = some name ∧
    rowNumber = .output t name slot.type ∧
    (slot ∈ c.projection ∨ Text.lowercase name ∉ c.slotNames.map Text.lowercase)

theorem Numbered.numbersBy {t : String} {c c' : Query} {added : List Expr} {rowNumber : Expr}
    (h : Numbered t c c' added rowNumber) : c'.NumbersBy (numberingKeys c.orderBy) := by
  obtain ⟨slot, hslot, hnumber, -⟩ := h.slot
  exact ⟨slot, hslot, hnumber⟩

theorem Moved.passes {t : String} {q p c : Query} {copies added : List Expr} (h : Moved t q p c copies added) :
    Passes t p c := by
  rw [h.parent]
  exact ⟨rfl, by rw [h.child], rfl, rfl, rfl, rfl⟩

theorem Moved.copies_length {t : String} {q p c : Query} {copies added : List Expr} (h : Moved t q p c copies added) :
    copies.length = q.projection.length := by simpa using congrArg List.length h.copies.values

/-- What is visible of the nested query: the copies of slots and what is bound through the wildcard. -/
theorem Moved.outputs_eq {t : String} {q p c : Query} {copies added : List Expr} (h : Moved t q p c copies added) :
    c.outputs (some q.projection.length) = copies ++ if q.wild then q.memo.entries else [] := by
  rw [h.child]
  simp only [outputs, List.take_left' h.copies_length]

/-- `n` is what the rows of `c` are numbered in: `c` itself, unless it is DISTINCT; else a query above
it that pages its columns. -/
inductive Isolated (c : Query) : Query → Prop
  | plain : c.distinct = false → Isolated c c
  | distinct {u : String} {m e : Query} {copies added slots : List Expr} : c.distinct = true →
      { c with limit := none, offset := none }.pushedDown u = .ok m →
      Moved u { c with limit := none, offset := none } m e copies added → Fixed u (e.outputs none) slots →
      Isolated c { m with projection := slots, starred := false, limit := c.limit, offset := c.offset }

theorem Isolated.not_distinct {c n : Query} (h : Isolated c n) : n.distinct = false := by
  cases h with
  | plain hd => exact hd
  | distinct _ _ hmoved _ => rw [hmoved.parent]

theorem Isolated.name {c n : Query} (h : Isolated c n) : n.name = c.name := by
  cases h with
  | plain _ => rfl
  | distinct _ _ hmoved _ => rw [hmoved.parent]

theorem Isolated.limit {c n : Query} (h : Isolated c n) : n.limit = c.limit := by cases h <;> rfl

theorem Isolated.offset {c n : Query} (h : Isolated c n) : n.offset = c.offset := by cases h <;> rfl

/-- `p'` is `p`, over the nested query `t`, with its wildcard fixed to the columns `shown`. If there are
none it stays a wildcard. -/
inductive Shows (t : String) (shown : List Expr) (p : Query) : Query → Prop
  | fixed {slots : List Expr} : shown ≠ [] → Fixed t shown slots →
      Shows t shown p { p with projection := slots, starred := false }
  | kept : shown = [] → Shows t shown p p

/-- How the paging of `q` is replaced, which leaves `r`: `child` is the query that is pushed down under
the name `t`, `rows` the one whose rows are numbered, and `numbered` this one with its row number. -/
structure Replacement (q r : Query) where
  t : String
  parent : Query
  child : Query
  rows : Query
  numbered : Query
  copies : List Expr
  added : List Expr
  numbers : List Expr
  rowNumber : Expr
  pushed : q.pushedDown t = .ok parent
  moved : Moved t q parent child copies added
  isolated : Isolated child rows
  numbering : Numbered t rows numbered numbers rowNumber
  numbersRows : ∀ slot ∈ numbers, slot.unnamed = .rowNumber (numberingKeys rows.orderBy)
  name : r.name = q.name
  tables : r.tables = [.nested numbered]
  output : r.projection = [] ∧ r.starred = true ∨
    r.starred = false ∧ Fixed t (child.outputs (some q.projection.length)) r.projection
  predicate : r.predicate = Expr.conjunction (rowNumber.pagingBounds q.offset q.limit)
  orderBy : r.orderBy = if q.name.isSome then [] else parent.orderBy
  limit : r.limit = none
  offset : r.offset = none
  members : r.members = parent.members
  memo : r.memo = {}

end Query

/-- A row number gets a slot under a name that no other has, unless one of the slots is this number. -/
theorem Query.addSlot_rowNumber (column : String) (keys : List OrderKey) {c : Query} (hname : c.name.isSome = true) :
    (c.addSlot (.withName column (.rowNumber keys))).1.IsNumberBy keys ∧
      ((c.addSlot (.withName column (.rowNumber keys))).1 ∈ c.projection ∨
        ∀ name, (c.addSlot (.withName column (.rowNumber keys))).1.outputName = some name →
          Text.lowercase name ∉ c.slotNames.map Text.lowercase) := by
  rcases addSlot_cases (.withName column (.rowNumber keys)) hname with ⟨hmem, hequal⟩ | ⟨hun, hfree⟩
  · exact ⟨.inr (by rwa [← Expr.equiv_unnamed] at hequal), .inl hmem⟩
  · exact ⟨.inl hun, .inr hfree⟩

namespace Edit

theorem onNested_ok {α : Type} {act : Edit α} {a : α} {d d' : Draft} {c : Query} (hc : d.query.tables = [.nested c])
    (h : onNested act d = .ok a d') : ∃ inner, act { d with query := c } = .ok a inner ∧
      d' = { inner with query := { d.query with tables := [.nested inner.query] } } := by
  unfold onNested at h
  rw [hc] at h
  simp only at h
  rcases hact : act { d with query := c } with ⟨a', inner⟩ | ⟨e, inner⟩
  · rw [hact] at h; cases h; exact ⟨inner, rfl, rfl⟩
  · rw [hact] at h; cases h

theorem startAfter_none (d : Draft) :
    startAfter none d = .ok () { d with query := { d.query with offset := none } } := rfl

theorem limitTo_none (d : Draft) :
    limitTo none d = .ok () { d with query := { d.query with limit := none } } := rfl

theorem startAfter_unpaged (offset : Option Expr) {d : Draft} (hl : d.query.limit = none) (ho : d.query.offset = none) :
    startAfter offset d = .ok () { d with query := { d.query with offset } } := by
  have hfree : (offset.isSome && (d.query.limit.isSome || d.query.offset.isSome)) = false := by rw [hl, ho]; simp
  change (if offset.isSome && (d.query.limit.isSome || d.query.offset.isSome) then
    pushDown >>= fun _ => modifyQuery ({ · with offset }) else modifyQuery ({ · with offset }) : Edit Unit) d = _
  rw [hfree]
  rfl

theorem limitTo_unlimited (limit : Option Expr) {d : Draft} (hl : d.query.limit = none) :
    limitTo limit d = .ok () { d with query := { d.query with limit } } := by
  have hfree : (limit.isSome && d.query.limit.isSome) = false := by rw [hl]; simp
  change (if limit.isSome && d.query.limit.isSome then
    pushDown >>= fun _ => modifyQuery ({ · with limit }) else modifyQuery ({ · with limit }) : Edit Unit) d = _
  rw [hfree]
  rfl

/-- Above the DISTINCT query, now without paging, there is a query that pages its columns. -/
theorem sinkDistinct_moved {c : Query} {s : Session} {d : Draft} (h : sinkDistinct ⟨c, s⟩ = .ok () d) :
    ∃ u m e copies added slots, { c with limit := none, offset := none }.pushedDown u = .ok m ∧
      Query.Moved u { c with limit := none, offset := none } m e copies added ∧
      Query.Fixed u (e.outputs none) slots ∧
      d.query = { m with projection := slots, starred := false, limit := c.limit, offset := c.offset } := by
  obtain ⟨q, d₁, hq, h⟩ := bind_ok h
  cases hq
  -- the paging goes, then the query goes down, and its columns come back up
  obtain ⟨_, d₁, h₁, h⟩ := bind_ok h
  rw [startAfter_none] at h₁
  cases h₁
  obtain ⟨_, d₁, h₁, h⟩ := bind_ok h
  rw [limitTo_none] at h₁
  cases h₁
  obtain ⟨_, ⟨m, s'⟩, hpush, h⟩ := bind_ok h
  obtain ⟨u, -, hpush⟩ := pushDown_ok hpush
  obtain ⟨e, copies, added, hmoved⟩ : ∃ e copies added,
      Query.Moved u { c with limit := none, offset := none } m e copies added := Query.pushedDown_moved hpush
  obtain ⟨_, d₁, h₁, h⟩ := bind_ok h
  rcases hexpand : Query.expandStar m with ⟨⟨⟩, m'⟩ | ⟨err, m'⟩
  swap
  · simp only [onQuery, hexpand] at h₁; cases h₁
  simp only [onQuery, hexpand] at h₁
  cases h₁
  obtain ⟨slots, hfixed, rfl⟩ := Query.expandStarTo_ok hmoved.passes (by rw [hmoved.parent]) hexpand
  -- the paging again, now of the query above
  obtain ⟨_, d₂, h₂, h⟩ := bind_ok h
  rw [startAfter_unpaged _ (by rw [hmoved.parent]) (by rw [hmoved.parent])] at h₂
  cases h₂
  rw [limitTo_unlimited _ (by rw [hmoved.parent])] at h
  cases h
  exact ⟨u, m, e, copies, added, slots, hpush, hmoved, hfixed, rfl⟩

theorem sinkDistinct_ok {c : Query} {s : Session} {d : Draft} (hc : c.Explicit)
    (h : sinkDistinct ⟨c, s⟩ = .ok () d) : ∃ u m e copies added,
      Query.Sunk u { c with limit := none, offset := none } m e copies added ∧
      d.query = { m with
        projection := Query.references u e.projection
        starred := false
        limit := c.limit
        offset := c.offset } := by
  obtain ⟨u, m, e, copies, added, slots, -, hmoved, hfixed, hd⟩ := sinkDistinct_moved h
  have hsunk := hmoved.sunk hc.notStarred hc.projects
  have hc' : { c with limit := none, offset := none }.Explicit := ⟨hc.notStarred, hc.projects, hc.noStar⟩
  have hshown : e.outputs none = e.projection := by simp [Query.outputs, (hsunk.explicit hc').notStarred]
  rw [hshown] at hfixed
  exact ⟨u, m, e, copies, added, hsunk, by rw [hd, hfixed.exact hsunk.named]⟩

theorem numberRows_ok {column : String} {bounds : List Expr} {c : Query} {s : Session} {d : Draft}
    (hc : c.distinct = false) (h : numberRows column ⟨c, s⟩ = .ok bounds d) :
    ∃ t added rowNumber, Query.Numbered t c d.query added rowNumber ∧
      (∀ slot ∈ added, slot.unnamed = .rowNumber (numberingKeys c.orderBy)) ∧
      bounds = rowNumber.pagingBounds c.offset c.limit := by
  obtain ⟨q, d₁, hq, h⟩ := bind_ok h
  cases hq
  rw [hc, if_neg Bool.false_ne_true] at h
  obtain ⟨q, d₁, hq, h⟩ := bind_ok h
  cases hq
  -- Without a name the row number could not be referred to.
  rcases hname : c.name with _ | t
  · simp only [hname] at h; cases h
  simp only [hname] at h
  obtain ⟨u, d₁, hd₁, h⟩ := bind_ok h
  cases hd₁
  -- the slot for the row number, and the reference to it
  obtain ⟨slot, d₂, hslot, h⟩ := bind_ok h
  generalize hkeys :
    (if (c.orderBy.map fun key => ({ key with expr := key.expr.unnamed } : OrderKey)).isEmpty = true then
      [⟨Expr.int 1, .asc⟩]
    else c.orderBy.map fun key => ({ key with expr := key.expr.unnamed } : OrderKey)) = keys at hslot
  obtain ⟨added, hw, -, hadded, i, hi, hv⟩ := Query.addSlot_spec (Expr.withName column (.rowNumber keys)) c.unordered
  cases hslot
  simp only at h
  rcases hl : (c.unordered.addSlot (Expr.withName column (.rowNumber keys))).1.lift t with e | rowNumber
  · rw [hl] at h; cases h
  rw [hl] at h
  obtain ⟨name, hname', rfl⟩ := Query.lift_ok hl
  obtain ⟨q, d₃, hq, h⟩ := bind_ok h
  cases hq
  -- the paging goes, and bounds on the row number take its place
  obtain ⟨u, d₃, h₃, h⟩ := bind_ok h
  rw [startAfter_none] at h₃
  cases h₃
  obtain ⟨u, d₄, h₄, h⟩ := bind_ok h
  rw [limitTo_none] at h₄
  cases h₄
  cases h
  -- The sort keys have gone into the row number, so that none can refer to its slot.
  have hunordered := List.forall₂_nil_left_iff.1 hw.keys
  obtain ⟨hnumber, hplace⟩ :=
    Query.addSlot_rowNumber column keys (c := c.unordered) (by rw [Query.unordered, hname]; rfl)
  refine ⟨t, added, _, ⟨hname, ?_, hw.named (by rw [Query.unordered, hname]; rfl),
    fun x hx => by rw [hadded x hx, hname']; rfl,
    ⟨i, _, name, hi, hname', rfl, hv.trans ?_⟩,
    ⟨_, List.mem_of_getElem? hi, hkeys ▸ hnumber, name, hname', rfl, hplace.imp_right (· name hname')⟩⟩,
    fun slot hs => ?_, ?_⟩
  · rw [hw.eq, hunordered]; rfl
  · rw [← hkeys]; exact .named ..
  · obtain ⟨e, he, hun⟩ := hw.sources slot hs
    rw [List.mem_singleton] at he
    rw [hun, he, ← hkeys]; rfl
  · rw [hw.eq]; rfl

/-- Of a DISTINCT query it is the query above the DISTINCT one whose rows are numbered. -/
theorem numberRows_distinct {column : String} {bounds : List Expr} {c : Query} {s : Session} {d : Draft}
    (hc : c.distinct = true) (h : numberRows column ⟨c, s⟩ = .ok bounds d) :
    ∃ d₁, sinkDistinct ⟨c, s⟩ = .ok () d₁ ∧ (d₁.query.distinct = false → numberRows column d₁ = .ok bounds d) := by
  obtain ⟨q, d₁, hq, h⟩ := bind_ok h
  cases hq
  rw [hc, if_pos rfl] at h
  obtain ⟨_, d₁, h₁, h⟩ := bind_ok h
  refine ⟨d₁, h₁, fun hd => ?_⟩
  rw [← h]
  change (if d₁.query.distinct then _ else _ : Edit (List Expr)) d₁ = _
  rw [hd]
  rfl

/-- The rows are numbered in a query that has the paging and is not DISTINCT. -/
theorem numberRows_isolated {column : String} {bounds : List Expr} {c : Query} {s : Session} {d : Draft}
    (h : numberRows column ⟨c, s⟩ = .ok bounds d) : ∃ n, Query.Isolated c n ∧ ∃ t added rowNumber,
      Query.Numbered t n d.query added rowNumber ∧
      (∀ slot ∈ added, slot.unnamed = .rowNumber (numberingKeys n.orderBy)) ∧
      bounds = rowNumber.pagingBounds n.offset n.limit := by
  cases hc : c.distinct with
  | false => exact ⟨c, .plain hc, numberRows_ok hc h⟩
  | true =>
    obtain ⟨d₁, hsink, hd⟩ := numberRows_distinct hc h
    obtain ⟨u, m, e, copies, added, slots, hpush, hmoved, hfixed, hquery⟩ := sinkDistinct_moved hsink
    have hisolated := Query.Isolated.distinct hc hpush hmoved hfixed
    rw [← hquery] at hisolated
    exact ⟨d₁.query, hisolated, numberRows_ok hisolated.not_distinct (hd hisolated.not_distinct)⟩

/-- The output of the query above is fixed to the copies, which hides what was added for sort keys and
members. -/
theorem shows_ok {α : Type} {t : String} {q p c : Query} {copies added : List Expr} {s : Session} {f : Edit α} {a : α}
    {d : Draft} (hmoved : Query.Moved t q p c copies added)
    (h : (if 0 < q.projection.length || !c.memo.entries.isEmpty then
      onQuery (Query.expandStarTo (some q.projection.length)) >>= fun _ => f else f) ⟨p, s⟩ = .ok a d) :
    ∃ p', Query.Shows t (copies ++ if q.wild then q.memo.entries else []) p p' ∧ f ⟨p', s⟩ = .ok a d := by
  split at h
  · rename_i hshown
    obtain ⟨_, d₁, h₁, h⟩ := bind_ok h
    rcases hexpand : Query.expandStarTo (some q.projection.length) p with ⟨⟨⟩, p'⟩ | ⟨err, p'⟩
    swap
    · simp only [onQuery, hexpand] at h₁; cases h₁
    simp only [onQuery, hexpand] at h₁
    cases h₁
    obtain ⟨slots, hfixed, rfl⟩ := Query.expandStarTo_ok hmoved.passes (by rw [hmoved.parent]) hexpand
    rw [hmoved.outputs_eq] at hfixed
    refine ⟨_, .fixed (fun hnil => ?_) hfixed, h⟩
    -- With no slots the query is a wildcard, and then it is the memo that is shown.
    obtain ⟨hcopies, hentries⟩ := List.append_eq_nil_iff.1 hnil
    have hprojection : q.projection = [] := List.length_eq_zero_iff.1 (by rw [← hmoved.copies_length, hcopies]; rfl)
    rw [if_pos (by simp [Query.wild, hprojection])] at hentries
    rw [hmoved.child, hprojection, hentries] at hshown
    simp at hshown
  · rename_i hnone
    simp only [Bool.or_eq_true, decide_eq_true_eq, not_or, Bool.not_eq_true, Bool.not_eq_false',
      List.isEmpty_iff] at hnone
    have hcopies : copies = [] := by
      rw [← List.length_eq_zero_iff, hmoved.copies_length]; omega
    have hentries : q.memo.entries = [] := by
      have := hnone.2; rw [hmoved.child] at this; exact this
    exact ⟨p, .kept (by simp [hcopies, hentries]), h⟩

/-- What is left of a query whose paging is replaced: a query over the numbered one, with the output
of before, bounds on the row number, and no order if it is a table itself. -/
theorem replacePaging_moved {column : String} {q : Query} {s : Session} {d : Draft}
    (h : replacePaging column ⟨q, s⟩ = .ok () d) : ∃ t p p' c copies added bounds s' d',
      q.pushedDown t = .ok p ∧ Query.Moved t q p c copies added ∧
      Query.Shows t (copies ++ if q.wild then q.memo.entries else []) p p' ∧
      numberRows column ⟨c, s'⟩ = .ok bounds d' ∧
      d.query = { p' with
        tables := [.nested d'.query]
        predicate := Expr.conjunction bounds
        orderBy := if q.name.isSome then [] else p'.orderBy } := by
  obtain ⟨q', d₁, hq', h⟩ := bind_ok h
  cases hq'
  obtain ⟨_, ⟨p, s'⟩, hpush, h⟩ := bind_ok h
  obtain ⟨t, -, hpush⟩ := pushDown_ok hpush
  obtain ⟨c, copies, added, hmoved⟩ : ∃ c copies added, Query.Moved t q p c copies added := Query.pushedDown_moved hpush
  have hp : { p with tables := [.nested c] } = p := by
    rw [← hmoved.passes.tables]; cases p; rfl
  obtain ⟨memo, d₁, hmemo, h⟩ := bind_ok h
  obtain ⟨inner, hinner, rfl⟩ := onNested_ok hmoved.passes.tables hmemo
  cases hinner
  simp only [hp] at h
  obtain ⟨p', hshows, h⟩ := shows_ok hmoved h
  have hname : p'.name = q.name := by cases hshows <;> rw [hmoved.parent]
  have htables : p'.tables = [.nested c] := by cases hshows <;> exact hmoved.passes.tables
  have hpred : p'.predicate = none := by cases hshows <;> exact hmoved.passes.predicate
  obtain ⟨bounds, d₂, hnumber, h⟩ := bind_ok h
  obtain ⟨d', hd', rfl⟩ := onNested_ok (c := c) htables hnumber
  refine ⟨t, p, p', c, copies, added, bounds, s', d', hpush, hmoved, hshows, hd', ?_⟩
  -- What is left are the bounds, if there are any, and the order, if it may stay.
  rcases hcond : Expr.conjunction bounds with _ | condition
  · simp only [hcond] at h
    obtain ⟨_, _, hq', h⟩ := bind_ok h
    cases hq'
    rcases hqn : q.name with _ | name
    · rw [if_neg (by simp [hname, hqn])] at h
      cases h
      simp [hpred]
    · rw [if_pos (by simp [hname, hqn])] at h
      cases h
      simp [hpred, Query.unordered]
  · simp only [hcond] at h
    obtain ⟨_, _, hrestrict, h⟩ := bind_ok h
    cases hrestrict
    obtain ⟨_, _, hq', h⟩ := bind_ok h
    cases hq'
    rcases hqn : q.name with _ | name
    · rw [if_neg (by simp [hname, hqn, Query.restrict])] at h
      cases h
      simp [hpred, Query.restrict, Expr.conjoin]
    · rw [if_pos (by simp [hname, hqn, Query.restrict])] at h
      cases h
      simp [hpred, Query.restrict, Expr.conjoin, Query.unordered]

theorem replacement_of_ok {column : String} {q : Query} {s : Session} {d : Draft}
    (h : replacePaging column ⟨q, s⟩ = .ok () d) : Nonempty (Query.Replacement q d.query) := by
  obtain ⟨t, p, p', c, copies, added, bounds, s', d', hpush, hmoved, hshows, hnumber, hd⟩ := replacePaging_moved h
  obtain ⟨n, hisolated, u, numbers, rowNumber, hn, hnumbers, rfl⟩ := numberRows_isolated hnumber
  have hname : c.name = some t := by rw [hmoved.child]
  obtain rfl : u = t := Option.some.inj (hn.name.symm.trans (hisolated.name.trans hname))
  -- Limit and offset have come down as they were.
  have hpaging : n.limit = q.limit ∧ n.offset = q.offset := by
    rw [hisolated.limit, hisolated.offset, hmoved.child]; exact ⟨rfl, rfl⟩
  rw [hpaging.1, hpaging.2] at hd
  rw [← hmoved.outputs_eq] at hshows
  obtain ⟨hpname, horder, hlimit, hoffset, hmembers, hmemo⟩ : p'.name = q.name ∧ p'.orderBy = p.orderBy ∧
      p'.limit = none ∧ p'.offset = none ∧ p'.members = p.members ∧ p'.memo = {} := by
    cases hshows <;> rw [hmoved.parent] <;> exact ⟨rfl, rfl, rfl, rfl, rfl, rfl⟩
  -- Either the wildcard is fixed to what the nested query shows, or there is nothing that it shows.
  have houtput : p'.projection = [] ∧ p'.starred = true ∨
      p'.starred = false ∧ Query.Fixed u (c.outputs (some q.projection.length)) p'.projection := by
    cases hshows with
    | fixed _ hfixed => exact .inr ⟨rfl, hfixed⟩
    | kept _ => exact .inl ⟨hmoved.passes.projection, hmoved.passes.starred⟩
  exact ⟨{
    t := u
    parent := p
    child := c
    rows := n
    numbered := d'.query
    copies := copies
    added := added
    numbers := numbers
    rowNumber := rowNumber
    pushed := hpush
    moved := hmoved
    isolated := hisolated
    numbering := hn
    numbersRows := hnumbers
    name := by rw [hd]; exact hpname
    tables := by rw [hd]
    output := by rw [hd]; exact houtput
    predicate := by rw [hd]
    orderBy := by rw [hd, ← horder]
    limit := by rw [hd]; exact hlimit
    offset := by rw [hd]; exact hoffset
    members := by rw [hd]; exact hmembers
    memo := by rw [hd]; exact hmemo }⟩

/-- Without a wildcard the output are the copies. -/
theorem replacePaging_ok {column : String} {q : Query} {s : Session} {d : Draft} (hq : q.Explicit)
    (h : replacePaging column ⟨q, s⟩ = .ok () d) : ∃ t p c copies added bounds s' d',
      Query.Sunk t q p c copies added ∧ numberRows column ⟨c, s'⟩ = .ok bounds d' ∧
      d.query = { p with
        tables := [.nested d'.query]
        projection := Query.references t copies
        starred := false
        predicate := Expr.conjunction bounds
        orderBy := if q.name.isSome then [] else p.orderBy } := by
  obtain ⟨t, p, p', c, copies, added, bounds, s', d', -, hmoved, hshows, hnumber, hd⟩ := replacePaging_moved h
  have hwild : q.wild = false := by simpa [Query.wild, hq.notStarred] using hq.projects
  refine ⟨t, p, c, copies, added, bounds, s', d', hmoved.sunk hq.notStarred hq.projects, hnumber, ?_⟩
  rw [hwild, if_neg Bool.false_ne_true, List.append_nil] at hshows
  cases hshows with
  | fixed _ hfixed => rw [hd, hfixed.exact hmoved.copies.named]
  | kept hnone =>
    have hlen := hmoved.copies_length
    rw [hnone] at hlen
    exact absurd (List.length_eq_zero_iff.1 hlen.symm) hq.projects

end Edit
end QueryTree
