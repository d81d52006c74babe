/-
LIMIT, OFFSET and DISTINCT act on the rows of a query in the order in which they are set, however
often. Each operation is applied in place where SQL applies it after all that is there already, and
above a push-down else; a push-down adds no slot and leaves a query that can be pushed down again.
-/
import QueryTree.Proofs.PushDown.Rows

namespace QueryTree

variable {V : Type} {I : Interpretation V} {outer : List (List (Part V))}

namespace Query

/-! ## Paging on top -/

section Paging

variable [DecidableEq V] {q : Query}

theorem rows_limit (h : q.limit = none) (e : Expr) :
    { q with limit := some e }.rows I outer = (q.rows I outer).take (I.bound outer e) := by
  rw [rows_eq, rows_eq I outer q]
  simp only [paged, page, h]
  rfl

theorem rows_offset (hl : q.limit = none) (ho : q.offset = none) (e : Expr) :
    { q with offset := some e }.rows I outer = (q.rows I outer).drop (I.bound outer e) := by
  rw [rows_eq, rows_eq I outer q]
  simp only [paged, page, hl, ho]
  rfl

theorem rows_distinct (hl : q.limit = none) (ho : q.offset = none) :
    { q with distinct := true }.rows I outer = (q.rows I outer).eraseDups := by
  rw [rows_eq, rows_eq I outer q]
  simp only [paged, page, hl, ho, Option.elim_none, if_true]
  split
  · exact (eraseDups_of_nodup (nodup_eraseDups _)).symm
  · rfl

end Paging

/-! ## Queries that are pushed down with no new slot -/

/-- `q` sorts and pages the rows of its only table `c`, named `t`, and sorts them by `cols`. -/
structure Shell [DecidableEq V] (I : Interpretation V) (outer : List (List (Part V))) (t : String) (q c : Query)
    (cols : List (Nat × Direction)) : Prop where
  passes : Passes t q c
  addressable : c.Addressable I outer t
  keys : List.Forall₂ (c.SortsByColumn I t) q.orderBy cols

/-- A query of some slots that has one for each sort key, or one that passes on what is nested in it. -/
inductive Stacked [DecidableEq V] (I : Interpretation V) (outer : List (List (Part V))) (q : Query) : Prop
  | slots (members : q.members = []) (explicit : q.Explicit)
      (keys : ∀ k ∈ q.orderBy, (q.slotOf k.expr).isSome = true)
  | shell (members : q.members = []) {t : String} {c : Query} {cols : List (Nat × Direction)}
      (shell : Shell I outer t q c cols)

variable [DecidableEq V]

/-- Paging has no part in it. -/
theorem Stacked.page {q : Query} (h : q.Stacked I outer) (limit offset : Option Expr) (distinct : Bool) :
    { q with limit, offset, distinct }.Stacked I outer := by
  cases h with
  | slots members explicit keys =>
    exact .slots members ⟨explicit.notStarred, explicit.projects, explicit.noStar⟩ keys
  | shell members shell =>
    have hp := shell.passes
    exact .shell members
      ⟨⟨hp.tables, hp.name, hp.starred, hp.choice, hp.projection, hp.predicate⟩, shell.addressable, shell.keys⟩

/-- What a push-down is to leave of `q`. -/
structure Restacked (I : Interpretation V) (outer : List (List (Part V))) (q p : Query) : Prop where
  stacked : p.Stacked I outer
  rows : p.rows I outer = q.rows I outer
  limit : p.limit = none
  offset : p.offset = none

theorem pushedDown_slots (hI : I.Lawful) {q : Query} (t : String) (hm : q.members = []) (hq : q.Explicit)
    (hk : ∀ k ∈ q.orderBy, (q.slotOf k.expr).isSome = true) :
    ∃ p, q.pushedDown t = .ok p ∧ q.Restacked I outer p := by
  obtain ⟨copies, hcopies, hfirst⟩ := firstChild_spec t q
  obtain ⟨keys, hp, -⟩ := pushedDown_exists (t := t) hm fun k hk' => by
    obtain ⟨i, hi⟩ := Option.isSome_iff_exists.1 (hk k hk')
    refine liftThrough_of_slot (i := i) ?_ ?_
    · rw [slotOf_congr (r := q) (by rw [hfirst]; exact hcopies.values), hi]
    · rw [hfirst]
      exact fun slot hs => hcopies.named.named slot hs (hcopies.noStar hq.noStar slot hs)
  obtain ⟨c, copies, added, h⟩ := pushedDown_ok hq.notStarred hq.projects hp
  have hadded : added = [] := h.added_eq_nil.2 ⟨fun k hk' => by rw [covers, hk k hk', Bool.true_or], by simp [hm]⟩
  obtain ⟨cols, -, hsort⟩ := exists_columns hI (h.explicit hq) h.keys
  have hrow : c.outputRow I = q.outputRow I := by
    funext s; rw [h.outputRow_eq hI hq, hadded, List.map_nil, List.append_nil]
  refine ⟨_, hp, .shell rfl ⟨h.passes, h.addressable hq, hsort⟩, ?_, rfl, rfl⟩
  rw [h.rows_eq hI hq, hrow, h.paged_eq, ← rows_eq]

/-- What is read through the wildcard is shown without a slot. -/
theorem liftThrough_of_wildcard {t u name : String} {type : DataType} {c : Query} (hp : c.projection = [])
    (hs : c.starred = true) :
    (liftThrough t (some u) (.output u name type)).run c = .ok (.output t name type, c) := by
  have hshown : c.showSlot (some u) (.output u name type) = (.output u name type, c) := by
    unfold showSlot slotOf
    rw [hp, hs]
    simp [Expr.unnamed, Expr.owner]
  rw [run_liftThrough, hshown]
  rfl

theorem pushedDown_shell (hI : I.Lawful) {q c : Query} {u : String} {cols : List (Nat × Direction)} (t : String)
    (hm : q.members = []) (hq : q.Shell I outer u c cols) :
    ∃ p, q.pushedDown t = .ok p ∧ q.Restacked I outer p := by
  have hpass := hq.passes
  have hfirst : q.firstChild t = { orderBy := q.orderBy, name := some t, starred := true } := by
    rw [firstChild, hpass.projection, hpass.starred]; rfl
  have hlift : ∀ name type, (liftThrough t q.wildcardTable (.output u name type)).run (q.firstChild t) =
      .ok (.output t name type, q.firstChild t) := fun name type => by
    rw [wildcardTable, hpass.choice, hfirst]; exact liftThrough_of_wildcard rfl rfl
  obtain ⟨keys, hp, hkeys⟩ := pushedDown_exists (t := t) hm fun k hk => by
    obtain ⟨col, -, -, name, type, he, -⟩ := forall₂_mem_left hq.keys hk
    exact ⟨_, he ▸ hlift name type⟩
  -- The nested query is `q` again, under a name and with the order that it pages in.
  generalize hc' : ({ q.firstChild t with
      tables := q.tables
      predicate := q.predicate
      limit := q.limit
      offset := q.offset
      distinct := q.distinct
      wildcardChoice := q.wildcardChoice
      memo := q.memo
      orderBy := if q.limit.isNone && q.offset.isNone then [] else (q.firstChild t).orderBy } : Query) = c' at hp
  rw [hfirst] at hc'
  have hpass' : Passes u c' c := by
    rw [← hc']
    exact ⟨hpass.tables, hpass.name, rfl, hpass.choice, rfl, hpass.predicate⟩
  have haddr : c'.Addressable I outer t := by
    refine ⟨by rw [← hc'], by rw [hpass'.columnNames_eq]; exact hq.addressable.differ, fun row hrow => ?_⟩
    rw [hpass'.columnNames_eq]
    exact hq.addressable.width row (hpass'.mem_rows hrow)
  -- A key that refers to a column below the wildcard refers to the same column above it.
  have hsort : List.Forall₂ (c'.SortsByColumn I t) keys cols := by
    refine forall₂_join (fun {k k' col} hlifted hsorts => ?_) hkeys hq.keys
    obtain ⟨e', hk', he'⟩ := hlifted
    obtain ⟨hd, name, type, he, hn⟩ := hsorts
    rw [he, hlift] at he'
    cases he'
    rw [hk']
    exact ⟨hd, name, type, rfl, by rw [hpass'.columnNames_eq]; exact hn⟩
  have hsorts : c'.Sorts I q.orderBy := by
    rw [← hc']
    by_cases hpaged : (q.limit.isNone && q.offset.isNone) = true
    · rw [Bool.and_eq_true, Option.isNone_iff_eq_none, Option.isNone_iff_eq_none] at hpaged
      exact .inl ⟨hpaged.1, hpaged.2, by simp [hpaged]⟩
    · exact .inr fun a b => by rw [if_neg hpaged]
  have hover : Passes t { tables := [.nested c'], orderBy := keys, name := q.name, starred := true,
                          wildcardChoice := some t, members := [] } c' :=
    ⟨rfl, by rw [← hc'], rfl, rfl, rfl, rfl⟩
  refine ⟨_, hp, .shell rfl ⟨hover, haddr, hsort⟩, ?_, rfl, rfl⟩
  have hscopes : c'.scopes I outer = q.scopes I outer := by rw [← hc']; rfl
  have hpaged : c'.paged I outer = q.paged I outer := by rw [← hc']; rfl
  rw [hover.rows_eq hI haddr hsort, paged_of_unpaged I outer rfl rfl, if_neg Bool.false_ne_true,
    sortBy_rows hI (fun a ha b hb => ?_) hsorts, hpaged, hscopes, rows_eq I outer q]
  · congr 1
    refine List.map_congr_left fun s hs => ?_
    rw [(sortBy_perm _ _).mem_iff] at hs
    rw [hpass.outputRow_eq hs, hpass'.outputRow_eq (hscopes ▸ hs)]
  · rw [hpass'.outputRow_eq ha, hpass'.outputRow_eq hb]
    exact compareKeys_over hI hpass'.tables hq.addressable hq.keys ha hb

end Query

/-! ## Operations that page -/

namespace Edit

variable [DecidableEq V]

theorem pushDown_stacked (hI : I.Lawful) {q : Query} {s : Session} (hstem : s.settings.subqueryStem ≠ "")
    (h : q.Stacked I outer) :
    ∃ p s', pushDown ⟨q, s⟩ = .ok () ⟨p, s'⟩ ∧ s'.settings = s.settings ∧ q.Restacked I outer p := by
  obtain ⟨t, s', ht, hs⟩ := createSubqueryName_exists hstem
  have hpushed : ∃ p, q.pushedDown t = .ok p ∧ q.Restacked I outer p := by
    cases h with
    | slots members explicit keys => exact Query.pushedDown_slots hI t members explicit keys
    | shell members shell => exact Query.pushedDown_shell hI t members shell
  obtain ⟨p, hp, hq⟩ := hpushed
  exact ⟨p, s', pushDown_of_pushedDown ht hp, hs, hq⟩

/-- A clause is set in place unless `blocked`, and else above a push-down; either way it does to the
rows what it does to those of a query that is not paged. -/
theorem setClause_stacked (hI : I.Lawful) (blocked : Bool) (set : Query → Query)
    {onRows : List (List V) → List (List V)} {q : Query} {s : Session} (hstem : s.settings.subqueryStem ≠ "")
    (h : q.Stacked I outer) (hset : ∀ {q : Query}, q.Stacked I outer → (set q).Stacked I outer)
    (hfree : ∀ {q : Query}, q.limit = none → q.offset = none → (set q).rows I outer = onRows (q.rows I outer))
    (hdirect : blocked = false → (set q).rows I outer = onRows (q.rows I outer)) :
    ∃ d, (do if blocked then pushDown
             modifyQuery set : Edit Unit) ⟨q, s⟩ = .ok () d ∧ d.session.settings = s.settings ∧
      d.query.Stacked I outer ∧ d.query.rows I outer = onRows (q.rows I outer) := by
  cases blocked with
  | false => exact ⟨⟨set q, s⟩, rfl, rfl, hset h, hdirect rfl⟩
  | true =>
    obtain ⟨p, s', hp, hs, hq⟩ := pushDown_stacked hI hstem h
    refine ⟨⟨set p, s'⟩, ?_, hs, hset hq.stacked, by rw [hfree hq.limit hq.offset, hq.rows]⟩
    change EStateM.bind pushDown _ _ = _
    unfold EStateM.bind
    rw [hp]
    rfl

end Edit

/-- A number of rows, as a literal. -/
structure RowCount where
  value : Int64
  type : DataType
  nonneg : 0 ≤ value

namespace RowCount

def toExpr (n : RowCount) : Expr := .constant (.integer n.value) n.type

def toNat (n : RowCount) : Nat := n.value.toNatClampNeg

theorem bound_toExpr (hI : I.Counting) (n : RowCount) : I.bound outer n.toExpr = n.toNat :=
  Interpretation.Counts.bound_eq hI (.constant n.nonneg) outer

end RowCount

/-- An operation that pages a query, or removes the duplicates among its rows. -/
inductive PagingCall
  | limit (n : RowCount)
  | offset (n : RowCount)
  | distinct

namespace PagingCall

/-- The operation on a draft. -/
def run : PagingCall → Edit Unit
  | limit n => Edit.limitTo (some n.toExpr)
  | offset n => Edit.startAfter (some n.toExpr)
  | distinct => Edit.distinctRows true

/-- What the operation is to do to rows. -/
def onRows {α : Type} [BEq α] : PagingCall → List α → List α
  | limit n, rows => rows.take n.toNat
  | offset n, rows => rows.drop n.toNat
  | distinct, rows => rows.eraseDups

variable [DecidableEq V]

theorem run_stacked (hI : I.Counting) (call : PagingCall) {d : Draft} (hstem : d.session.settings.subqueryStem ≠ "")
    (h : d.query.Stacked I outer) : ∃ d', call.run d = .ok () d' ∧ d'.session.settings = d.session.settings ∧
      d'.query.Stacked I outer ∧ d'.query.rows I outer = call.onRows (d.query.rows I outer) := by
  cases call with
  | limit n =>
    refine Edit.setClause_stacked hI.toLawful d.query.limit.isSome ({ · with limit := some n.toExpr }) hstem h
      (fun hq => hq.page ..) (fun hl _ => ?_) (fun hl => ?_)
    · rw [Query.rows_limit hl, n.bound_toExpr hI]; rfl
    · rw [Query.rows_limit (Option.isSome_eq_false_iff.1 hl |> Option.isNone_iff_eq_none.1), n.bound_toExpr hI]; rfl
  | offset n =>
    refine Edit.setClause_stacked hI.toLawful (d.query.limit.isSome || d.query.offset.isSome)
      ({ · with offset := some n.toExpr }) hstem h (fun hq => hq.page ..) (fun hl ho => ?_) (fun hpaged => ?_)
    · rw [Query.rows_offset hl ho, n.bound_toExpr hI]; rfl
    · rw [Bool.or_eq_false_iff, Option.isSome_eq_false_iff, Option.isSome_eq_false_iff,
        Option.isNone_iff_eq_none, Option.isNone_iff_eq_none] at hpaged
      rw [Query.rows_offset hpaged.1 hpaged.2, n.bound_toExpr hI]; rfl
  | distinct =>
    refine Edit.setClause_stacked hI.toLawful (d.query.limit.isSome || d.query.offset.isSome)
      ({ · with distinct := true }) hstem h (fun hq => hq.page ..) (fun hl ho => Query.rows_distinct hl ho)
      (fun hpaged => ?_)
    rw [Bool.or_eq_false_iff, Option.isSome_eq_false_iff, Option.isSome_eq_false_iff,
      Option.isNone_iff_eq_none, Option.isNone_iff_eq_none] at hpaged
    exact Query.rows_distinct hpaged.1 hpaged.2

theorem runs_stacked (hI : I.Counting) : ∀ (calls : List PagingCall) {d : Draft},
    d.session.settings.subqueryStem ≠ "" → d.query.Stacked I outer →
    ∃ d', calls.forM PagingCall.run d = .ok () d' ∧
      d'.query.rows I outer = calls.foldl (fun rows call => call.onRows rows) (d.query.rows I outer)
  | [], d, _, _ => ⟨d, rfl, rfl⟩
  | call :: calls, d, hstem, h => by
    obtain ⟨d₁, hrun, hs, h₁, hrows⟩ := run_stacked hI call hstem h
    obtain ⟨d₂, hruns, hrows'⟩ := runs_stacked hI calls (hs ▸ hstem) h₁
    refine ⟨d₂, ?_, by rw [hrows', hrows]; rfl⟩
    change EStateM.bind (run call) (fun _ => calls.forM run) d = _
    unfold EStateM.bind
    rw [hrun]
    exact hruns

end PagingCall

/-- However often and in whatever order LIMIT, OFFSET and DISTINCT are set on a query with a slot for
each sort key, all goes well, and the rows are those of the query after the same steps in that order. -/
theorem rows_paging_calls [DecidableEq V] (hI : I.Counting) {q : Query} {s : Session} (calls : List PagingCall)
    (hstem : s.settings.subqueryStem ≠ "") (hq : q.Explicit) (hm : q.members = [])
    (hk : ∀ k ∈ q.orderBy, ∃ slot ∈ q.projection, slot.equiv k.expr = true) :
    ∃ d, calls.forM PagingCall.run ⟨q, s⟩ = .ok () d ∧
      d.query.rows I outer = calls.foldl (fun rows call => call.onRows rows) (q.rows I outer) := by
  refine PagingCall.runs_stacked hI calls hstem (.slots hm hq fun k hk' => ?_)
  obtain ⟨slot, hs, he⟩ := hk k hk'
  exact Query.slotOf_isSome hs he

/-- Two rows, then without duplicates, then without the first. -/
theorem rows_limit_distinct_offset :
    let q : Query := { tables := [.base "People" none "p" none], projection := [.column "p" none "Name" .text],
                       orderBy := [⟨.column "p" none "Name" .text, .desc⟩] }
    let calls : List PagingCall := [.limit ⟨2, .int32, by decide⟩, .distinct, .offset ⟨1, .int32, by decide⟩]
    q.Explicit ∧ ∃ d, calls.forM PagingCall.run ⟨q, {}⟩ = .ok () d ∧
      d.query.rows .people [] = ((q.rows .people []).take 2).eraseDups.drop 1 := by
  intro q calls
  have hq : q.Explicit := ⟨rfl, List.cons_ne_nil _ _, by simp [q, Expr.isStar]⟩
  exact ⟨hq, rows_paging_calls Interpretation.people_numbering.toCounting calls (by decide) hq rfl (by decide)⟩

end QueryTree
