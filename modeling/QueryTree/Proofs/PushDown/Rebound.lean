/-
Columns that are requested again after a push-down. A sort key or member comes to refer to the first slot for
the column in the nested query, and to the wildcard only if there is none. A request goes by the wildcard first.
So the two give one reference unless the wildcard has the column and a slot has it under another name.
-/
import QueryTree.Proofs.Binding.Distinct
import QueryTree.Proofs.Binding.History
import QueryTree.Proofs.PushDown.LiftedNames

namespace QueryTree

/-! ## References to columns -/

namespace Expr

variable {t : String} {a a' b b' : Expr}

theorem address_of_isColumn (h : a.isColumn = true) : ∃ address, a.address = some address := by
  cases a with
  | column | output => exact ⟨_, rfl⟩
  | _ => cases h

/-- Of a column without a name of its own, a reference shows no more than that it equals another. -/
theorem lift_of_equiv_column (ha : a.isColumn = true) (hb : b.unnamed.isColumn = true) (h : a.equiv b = true) :
    a.lift t = b.unnamed.lift t := by
  obtain ⟨address, haddress⟩ := address_of_isColumn ha
  have hunnamed : b.unnamed.address = some address := by
    rw [← haddress, address_of_equiv h]
    exact address_congr (unnamed_unnamed b)
  rw [Query.lift_of_outputName (outputName_of_isColumn ha haddress),
    Query.lift_of_outputName (outputName_of_isColumn hb hunnamed), type_unnamed, type_of_equiv h]

/-- References to outputs of one type differ in the name alone. -/
theorem lift_eq_iff (ha : a.lift t = .ok a') (hb : b.lift t = .ok b') (htype : a.type = b.type) :
    a' = b' ↔ b'.outputName = a.outputName := by
  obtain ⟨m, hm, rfl⟩ := Query.lift_ok ha
  obtain ⟨n, hn, rfl⟩ := Query.lift_ok hb
  rw [hm, htype]
  constructor
  · intro heq
    rw [← heq]
    rfl
  · intro hname
    cases hname
    rfl

end Expr

namespace Query

/-! ## What a column is lifted to -/

variable {t : String} {q c c' c'' p : Query} {x e e' : Expr}

/-- What is lifted to `e'` for the column `e`, when the nested query was `c` before and is `c'` in the end: its first
slot for the column, which is the one that it had if it had one, or else the wildcard of `q`. -/
inductive LiftsColumn (t : String) (q c c' : Query) (e e' : Expr) : Prop
  | slot {slot : Expr} : c'.projection.find? (·.equiv e) = some slot → slot.lift t = .ok e' →
      (∀ first, c.projection.find? (·.equiv e) = some first → slot = first) → LiftsColumn t q c c' e e'
  | wildcard : c.projection.find? (·.equiv e) = none → c.starred = true → q.wildcardCovers e = true →
      e.unnamed.lift t = .ok e' → LiftsColumn t q c c' e e'

/-- Slots that were there before, or come later, change nothing. -/
theorem LiftsColumn.before {c₀ : Query} (h : LiftsColumn t q c c' e e') (hslots : c₀.projection <+: c.projection)
    (hstarred : c.starred = c₀.starred) : LiftsColumn t q c₀ c' e e' := by
  cases h with
  | slot hfirst hlift hkept => exact .slot hfirst hlift fun first hold => hkept first (hslots.find?_eq_some hold)
  | wildcard hnone hs hcovers hlift =>
    refine .wildcard ?_ (hstarred ▸ hs) hcovers hlift
    rcases hold : c₀.projection.find? (·.equiv e) with _ | first
    · exact hold
    · rw [hslots.find?_eq_some hold] at hnone
      cases hnone

theorem LiftsColumn.widen (h : LiftsColumn t q c c' e e') (hslots : c'.projection <+: c''.projection) :
    LiftsColumn t q c c'' e e' := by
  cases h with
  | slot hfirst hlift hkept => exact .slot (hslots.find?_eq_some hfirst) hlift hkept
  | wildcard hnone hs hcovers hlift => exact .wildcard hnone hs hcovers hlift

/-- What equals a column is shown as the column is. -/
theorem showSlot_of_equiv (he : e.unnamed.isColumn = true) (hx : x.equiv e = true) (q c : Query) :
    c.showSlot q.wildcardTable x =
      (c.projection.find? (·.equiv e)).elim
        (if c.starred && q.wildcardCovers e then (x.unnamed, c) else c.addSlot x) (·, c) := by
  have hcovers : q.wildcardCovers x = q.wildcardCovers e := by
    rw [wildcardCovers, wildcardCovers, Expr.owner_unnamed, Expr.owner_unnamed, Expr.address_of_equiv hx]
  simp only [showSlot_eq, Expr.equiv_congr_right hx he, hcovers]

/-- As long as there is no slot for it, a column of the wildcard is lifted to refer to that. -/
theorem liftThrough_column_of_wildcard (he : e.unnamed.isColumn = true) (hx : x.equiv e = true)
    (hnone : c.projection.find? (·.equiv e) = none) (hs : c.starred = true) (hcovers : q.wildcardCovers e = true)
    (h : (liftThrough t q.wildcardTable x).run c = .ok (e', c')) : c' = c ∧ e.unnamed.lift t = .ok e' := by
  have hlift : x.unnamed.lift t = e.unnamed.lift t :=
    Expr.lift_of_equiv_column (Expr.isColumn_of_equiv hx he) he (by rwa [Expr.unnamed_equiv])
  have hwild : (c.starred && q.wildcardCovers e) = true := by rw [hs, hcovers, Bool.and_self]
  have hshown : c.showSlot q.wildcardTable x = (x.unnamed, c) := by
    rw [showSlot_of_equiv he hx, hnone, Option.elim_none, if_pos hwild]
  obtain ⟨hx', hc'⟩ := shown_of_liftThrough h
  rw [hshown] at hx' hc'
  rw [hlift] at hx'
  exact ⟨hc', hx'⟩

theorem liftThrough_column (he : e.unnamed.isColumn = true) (hx : x.equiv e = true)
    (h : (liftThrough t q.wildcardTable x).run c = .ok (e', c')) : LiftsColumn t q c c' e e' := by
  by_cases hwild : c.projection.find? (·.equiv e) = none ∧ c.starred = true ∧ q.wildcardCovers e = true
  · obtain ⟨hnone, hs, hcovers⟩ := hwild
    exact .wildcard hnone hs hcovers (liftThrough_column_of_wildcard he hx hnone hs hcovers h).2
  · obtain ⟨hlift, rfl⟩ := shown_of_liftThrough h
    rw [showSlot_of_equiv he hx] at hlift ⊢
    rcases hf : c.projection.find? (·.equiv e) with _ | slot
    · have hfree : ¬(c.starred && q.wildcardCovers e) = true := by
        rw [Bool.and_eq_true]
        exact fun h => hwild ⟨hf, h⟩
      have hfirst : (c.addSlot x).2.projection.find? (·.equiv e) = some (c.addSlot x).1 := by
        have hfound := find?_addSlot (Expr.isColumn_of_equiv hx he) c
        simp only [Expr.equiv_congr_right hx he] at hfound
        exact hfound
      rw [hf, Option.elim_none, if_neg hfree] at hlift ⊢
      exact .slot hfirst hlift fun first hold => by rw [hf] at hold; cases hold
    · rw [hf, Option.elim_some] at hlift ⊢
      exact .slot hf hlift fun first hold => Option.some.inj (hf.symm.trans hold)

/-- The same for all that a push-down lifts. -/
theorem pushedDown_liftsColumn (he : e.unnamed.isColumn = true) (h : q.pushedDown t = .ok p) :
    ∃ c, p.tables = [.nested c] ∧ ∀ r ∈ q.lifted p, r.1.equiv e = true → LiftsColumn t q (q.firstChild t) c e r.2 := by
  obtain ⟨-, c, -, htables, -, hlifts⟩ := pushedDown_related
    (T := fun c => (q.firstChild t).projection <+: c.projection ∧ c.starred = q.wild)
    (P := fun c x e' => x.equiv e = true → LiftsColumn t q (q.firstChild t) c e e')
    (fun hslots _ hlifts hx => (hlifts hx).widen hslots) (fun x _ c c' e' ⟨hslots, hstarred⟩ hrun => by
      obtain ⟨added, hgains, -⟩ := liftThrough_ok hrun
      refine ⟨⟨?_, hgains.starred.trans hstarred⟩, fun hx => (liftThrough_column he hx hrun).before hslots hstarred⟩
      rw [hgains.projection]
      exact hslots.trans (List.prefix_append ..)) ⟨List.prefix_refl _, rfl⟩ h
  exact ⟨c, htables, hlifts⟩

/-- With the wildcard to output the column and no slot for it, what equals the column refers to the wildcard, unless
casts of the column are lifted too, which gets them a slot. -/
theorem pushedDown_lifts_to_wildcard (he : e.unnamed.isColumn = true) (h : q.pushedDown t = .ok p)
    (hwild : q.wild = true) (hcovers : q.wildcardCovers e = true)
    (hnone : (q.firstChild t).projection.find? (·.equiv e) = none)
    (hcasts : ∀ x ∈ q.orderBy.map (·.expr) ++ q.members.map (·.2), x.stripCasts.equiv e = true → x.equiv e = true) :
    ∀ r ∈ q.lifted p, r.1.equiv e = true → e.unnamed.lift t = .ok r.2 := by
  obtain ⟨-, -, -, -, -, hlifted⟩ : ∃ lifting c : Query,
      (lifting.starred = true ∧ lifting.projection.find? (·.equiv e) = none) ∧
      p.tables = [.nested c] ∧ c.projection = lifting.projection ∧
      ∀ r ∈ q.lifted p, r.1.equiv e = true → e.unnamed.lift t = .ok r.2 := by
    refine pushedDown_related (T := fun c => c.starred = true ∧ c.projection.find? (·.equiv e) = none)
      (P := fun _ x e' => x.equiv e = true → e.unnamed.lift t = .ok e') (fun _ _ hlift => hlift) ?_ ⟨hwild, hnone⟩ h
    rintro x hmem c c' e' ⟨hs, hfree⟩ hrun
    by_cases hx : x.equiv e = true
    · obtain ⟨rfl, hlift⟩ := liftThrough_column_of_wildcard he hx hfree hs hcovers hrun
      exact ⟨⟨hs, hfree⟩, fun _ => hlift⟩
    · -- A slot that is added holds `x` without its casts, and so not the column.
      obtain ⟨added, hgains, -⟩ := liftThrough_ok hrun
      refine ⟨⟨hgains.starred.trans hs, ?_⟩, fun h => absurd h hx⟩
      rw [hgains.projection, List.find?_append, hfree, Option.none_or, List.find?_eq_none]
      intro slot hslot hequal
      obtain ⟨y, hy, hvalue⟩ := hgains.sources slot hslot
      rw [List.mem_singleton.1 hy] at hvalue
      rw [← Expr.unnamed_equiv, hvalue, Expr.unnamed_equiv] at hequal
      exact hx (hcasts x hmem hequal)
  exact hlifted

/-! ## What a request answers -/

section Request

variable {column : String} {type : DataType} {source : Source} {bound : Expr}

theorem serves_of_firstSettled : ∀ {ts : List Table}, FirstSettled column type source (.ok bound) ts →
    ts.any (Table.serves source) = true
  | [], h => by
    rw [FirstSettled] at h
    cases h
  | t :: ts, h => by
    rw [FirstSettled] at h
    rw [List.any_cons]
    by_cases ht : t.serves source = true
    · rw [ht, Bool.true_or]
    · rw [if_neg ht] at h
      rw [serves_of_firstSettled h, Bool.or_true]

/-- With a wildcard, what stands for a column has no name of its own. -/
theorem standIn_isColumn (hmemo : ∀ x ∈ q.memo.entries, x.isColumn = true) (hb : bound.isColumn = true)
    (hs : q.starred = true) (threshold : Nat) : (q.standIn threshold bound).1.isColumn = true := by
  unfold standIn
  rw [if_pos hs]
  rcases StarMemo.remember_cases threshold bound q.memo with ⟨entry, hentry, -, hr⟩ | ⟨hr, -⟩
  · rw [hr]
    exact hmemo entry hentry
  · rw [hr]
    exact hb

/-- A wildcard that nothing has gone through gives what it is asked for. -/
theorem standIn_of_unused (hs : q.starred = true) (hm : q.memo = {}) (threshold : Nat) (e : Expr) :
    (q.standIn threshold e).1 = e := by
  unfold standIn
  rw [if_pos hs, hm]
  exact congrArg Prod.fst ((StarMemo.consistent_of_entries []).remember threshold e).1

/-- A nested query refers to a column by the wildcard where that has it, else by the first slot for it. -/
theorem bindBelow_of_settled (hc : c.Consistent) (hmemo : ∀ x ∈ c.memo.entries, x.isColumn = true)
    (hset : FirstSettled column type source (.ok bound) c.tables) (he : e.equiv bound = true) (threshold : Nat)
    (t : String) : ∃ e' c', c.bindBelow column type source threshold t = .ok e' c' ∧
      if c.starred && c.wildcardCovers e then e.unnamed.lift t = .ok e'
      else ∀ slot, c.projection.find? (·.equiv e) = some slot → slot.lift t = .ok e' := by
  have hb : bound.unnamed.isColumn = true := Expr.unnamed_isColumn_of_settled hset
  have hbind : c.bind threshold column type source =
      .ok (c.standIn threshold bound).1 (c.standIn threshold bound).2 := by
    rw [bind_eq, FirstSettled.bind threshold (fun t ht x hx => hc.nested ht hx) hset]
    cases c
    rfl
  have hstand : (c.standIn threshold bound).1.equiv bound = true := equiv_standIn hb threshold c
  have hcolumn : (c.standIn threshold bound).1.unnamed.isColumn = true := Expr.isColumn_of_equiv hstand hb
  -- What stands for the column equals the same slots as `e` and has its address.
  have hsame (x : Expr) : x.equiv (c.standIn threshold bound).1 = x.equiv e := by
    rw [Expr.equiv_congr_right hstand hb, Expr.equiv_congr_right he hb]
  have hplace : (c.standIn threshold bound).1.address = e.address := by
    rw [Expr.address_of_equiv hstand, Expr.address_of_equiv he]
  obtain ⟨e', c', hexpose⟩ := expose_ok t hcolumn (c.standIn threshold bound).2
  refine ⟨e', c', by rw [bindBelow, hbind]; exact hexpose, ?_⟩
  obtain ⟨hlift, -⟩ := expose_shown hexpose
  have hcovers : ((c.standIn threshold bound).2.starred &&
      (c.standIn threshold bound).2.wildcardCovers (c.standIn threshold bound).1) =
        (c.starred && c.wildcardCovers e) := by
    rw [wildcardCovers, Expr.owner_unnamed, hplace, ← Expr.owner_unnamed, standIn_keeps]
    rfl
  rw [hcovers] at hlift
  by_cases hw : (c.starred && c.wildcardCovers e) = true
  · rw [if_pos hw] at hlift ⊢
    have hs : c.starred = true := (Bool.and_eq_true _ _ ▸ hw).1
    have hbare := standIn_isColumn hmemo (FirstSettled.isColumn hset) hs threshold
    have hequal : (c.standIn threshold bound).1.equiv e = true := by
      rw [← hsame]
      exact Expr.equiv_self_of_column hcolumn
    rw [← Expr.lift_of_equiv_column hbare (Expr.isColumn_of_equiv he hb) hequal]
    exact hlift
  · rw [if_neg hw] at hlift ⊢
    intro slot hslot
    have hfound : (c.standIn threshold bound).2.projection.find? (·.equiv (c.standIn threshold bound).1) =
        some slot := by
      rw [standIn_keeps]
      simp only [hsame]
      exact hslot
    rw [addSlot_of_find? hcolumn hfound] at hlift
    exact hlift

/-- What a push-down leaves answers with what the nested query shows for the column. -/
theorem bind_of_pushedDown (hq : q.Consistent) (hmemo : ∀ x ∈ q.memo.entries, x.isColumn = true)
    (hset : FirstSettled column type source (.ok bound) q.tables) (he : e.equiv bound = true)
    (h : q.pushedDown t = .ok p) (threshold : Nat) : ∃ c e' p', p.tables = [.nested c] ∧
      p.bind threshold column type source = .ok e' p' ∧
      if q.wild && q.wildcardCovers e then e.unnamed.lift t = .ok e'
      else ∀ slot, c.projection.find? (·.equiv e) = some slot → slot.lift t = .ok e' := by
  obtain ⟨c, copies, added, hmoved⟩ := pushedDown_moved h
  have htables : c.tables = q.tables := by rw [hmoved.child]
  have hname : c.name = some t := by rw [hmoved.child]
  have hbelow : c.Consistent :=
    (hq.pushedDown h).nested (t := .nested c) (by rw [hmoved.parent]; exact List.mem_singleton_self _) rfl
  obtain ⟨e', c', hanswer, hshown⟩ := bindBelow_of_settled hbelow (by rw [hmoved.child]; exact hmemo)
    (by rw [htables]; exact hset) he threshold t
  -- The nested query is asked, as it has the tables now.
  have hserves : (Table.nested c).serves source = true := by
    rw [Table.serves, serves_eq_any, htables]
    exact serves_of_firstSettled hset
  have hfirst : bindFirst threshold column type source [.nested c] = .ok e' [.nested c'] := by
    rw [bindFirst, if_pos hserves, Table.bind_nested column type source threshold hname, hanswer]
    rfl
  have hcovers : (c.starred && c.wildcardCovers e) = (q.wild && q.wildcardCovers e) := by
    rw [hmoved.child]
    rfl
  rw [hcovers] at hshown
  have hbind : ∃ p', p.bind threshold column type source = .ok e' p' := by
    rw [bind_eq, hmoved.parent]
    simp only [hfirst]
    rw [standIn_of_unused rfl rfl]
    exact ⟨_, rfl⟩
  obtain ⟨p', hbind⟩ := hbind
  exact ⟨c, e', p', by rw [hmoved.parent], hbind, hshown⟩

/-- A column that is given was settled in the tables, and equals what is bound there. -/
theorem settled_of_resolveColumn {settings : Settings} (hq : q.Consistent)
    (h : resolveColumn settings column type source q = .ok e p) :
    ∃ bound, FirstSettled column type source (.ok bound) p.tables ∧ e.equiv bound = true := by
  have hp : p.Consistent := by
    have hgrows := q.grows_resolveColumn settings column type source
    rw [h] at hgrows
    exact hgrows.consistent hq
  rw [resolveColumn_eq_bind (column_of_resolveColumn h)] at h
  obtain ⟨r, answer, hb, hdecided⟩ : ∃ r answer, q.bind settings.indexThreshold column type source = outcome r answer ∧
      r.Decided column type source answer := decided_bind hq settings.indexThreshold
  rw [hb] at h
  rcases hdecided with ⟨err, -, rfl⟩ | ⟨bound, answer, hset, hstands, rfl⟩
  · cases h
  · cases h
    have hequal := equiv_standIn (Expr.unnamed_isColumn_of_settled hset) settings.indexThreshold p
    rw [hstands.standIn hp.1] at hequal
    exact ⟨bound, hset, hequal⟩

/-- It answers with what the column was lifted to unless that has a name that the wildcard does not have for it. -/
theorem LiftsColumn.answer_eq_iff {answer : Expr} (h : LiftsColumn t q (q.firstChild t) c e e')
    (hanswer : if q.wild && q.wildcardCovers e then e.unnamed.lift t = .ok answer
      else ∀ slot, c.projection.find? (·.equiv e) = some slot → slot.lift t = .ok answer) :
    answer = e' ↔ (q.wild = true → q.wildcardCovers e = true → e'.outputName = e.unnamed.outputName) := by
  by_cases hw : (q.wild && q.wildcardCovers e) = true
  · rw [if_pos hw] at hanswer
    rw [Bool.and_eq_true] at hw
    have hsame : answer = e' ↔ e'.outputName = e.unnamed.outputName := by
      cases h with
      | @slot slot hfirst hlift _ =>
        have hequal : slot.equiv e = true := by simpa using List.find?_some hfirst
        exact Expr.lift_eq_iff hanswer hlift (by rw [Expr.type_unnamed, Expr.type_of_equiv hequal])
      | wildcard _ _ _ hlift => exact Expr.lift_eq_iff hanswer hlift rfl
    rw [hsame]
    exact ⟨fun h _ _ => h, fun h => h hw.1 hw.2⟩
  · rw [if_neg hw] at hanswer
    rw [Bool.and_eq_true] at hw
    refine iff_of_true ?_ fun hwild hcovers => absurd ⟨hwild, hcovers⟩ hw
    cases h with
    | slot hfirst hlift _ => exact Except.ok.inj ((hanswer _ hfirst).symm.trans hlift)
    | wildcard _ hwild hcovers _ => exact absurd ⟨hwild, hcovers⟩ hw

end Request

end Query

open Query in
/-- A column that is given by a query is a sort key or member of it when it is pushed down. Requested again it
comes as the reference to which it was lifted exactly if the wildcard does not have it, or if that reference goes
by the name of the column. It goes by that of the first slot for the column. Without one it goes by that of the
column, as long as no casts of it are lifted beside it. -/
theorem resolveColumn_pushDown_iff {settings : Settings} (settings' : Settings) {column : String} {type : DataType}
    {source : Source} {q q' p : Query} {e : Expr} {keys : List OrderKey} {members : List (String × Expr)}
    {s s' : Session}
    (hq : q.Assembled) (h : resolveColumn settings column type source q = .ok e q')
    (hpush : Edit.pushDown ⟨{ q' with orderBy := keys, members }, s⟩ = .ok () ⟨p, s'⟩) :
    ∃ t answer p', s.createSubqueryName = .ok t s' ∧ resolveColumn settings' column type source p = .ok answer p' ∧
      ∀ r ∈ lifted { q' with orderBy := keys, members } p, r.1.equiv e = true →
        (answer = r.2 ↔ (q'.wild = true → q'.wildcardCovers e = true → r.2.outputName = e.unnamed.outputName)) ∧
        (∀ slot, (q'.firstChild t).projection.find? (·.equiv e) = some slot → slot.lift t = .ok r.2) ∧
        ((q'.firstChild t).projection.find? (·.equiv e) = none → q'.wild = true → q'.wildcardCovers e = true →
          (∀ x ∈ keys.map (·.expr) ++ members.map (·.2), x.stripCasts.equiv e = true → x.equiv e = true) →
          e.unnamed.lift t = .ok r.2) := by
  obtain ⟨t, ht, hdown⟩ := Edit.pushDown_ok hpush
  have hq' : q'.Assembled := by
    have hrun : Operation.run s q (.resolveColumn settings column type source) = q' := congrArg stateOf h
    rw [← hrun]
    exact .operation _ s hq (by rintro c ⟨⟩)
  -- After the first request the table is settled, so that a second one finds the same column.
  obtain ⟨bound, hset, he⟩ := settled_of_resolveColumn hq.consistent h
  have hcolumn : e.unnamed.isColumn = true := Expr.isColumn_of_equiv he (Expr.unnamed_isColumn_of_settled hset)
  have hmemo : ∀ x ∈ q'.memo.entries, x.isColumn = true := (hq'.everywhere orderly_local q' .root).memo
  have hconsistent : Consistent { q' with orderBy := keys, members } :=
    ⟨hq'.consistent.1, fun x hx => hq'.consistent.2 x (.of_tables (by exact List.Subset.refl q'.tables) hx)⟩
  obtain ⟨c, answer, p', hc, hbind, hanswer⟩ :=
    bind_of_pushedDown hconsistent hmemo hset he hdown settings'.indexThreshold
  -- What the push-down has made of the keys and members that are the column.
  obtain ⟨c', hc', hlifted⟩ := pushedDown_liftsColumn hcolumn hdown
  obtain rfl : c = c' := nested_eq_of_tables hc hc'
  refine ⟨t, answer, p', ht, ?_, fun r hr hequal => ⟨?_, fun slot hslot => ?_, fun hnone hwild hcovers hcasts => ?_⟩⟩
  · rw [resolveColumn_eq_bind (column_of_resolveColumn h)]
    exact hbind
  · exact (hlifted r hr hequal).answer_eq_iff hanswer
  · rcases hlifted r hr hequal with ⟨-, hlift, hsame⟩ | ⟨hnone, -, -, -⟩
    · rwa [← hsame slot hslot]
    · have hslot' : (firstChild t { q' with orderBy := keys, members }).projection.find? (·.equiv e) = some slot :=
        hslot
      rw [hnone] at hslot'
      cases hslot'
  · exact pushedDown_lifts_to_wildcard hcolumn hdown hwild hcovers hnone hcasts r hr hequal

/-- The wildcard is over the people, so the identifier of an order goes by the name of its slot both times. -/
theorem resolveColumn_pushDown_beside_wildcard :
    let id := Expr.column "o" (some ⟨2⟩) "Id" .int32
    let q : Query := {
      tables := [.base "People" none "p" (some ⟨1⟩), .base "Orders" none "o" (some ⟨2⟩)]
      projection := [.named "Key" id]
      starred := true
      wildcardChoice := some "p" }
    q.Assembled ∧ ∃ q' p s' p', Query.resolveColumn {} "Id" .int32 ⟨2⟩ q = .ok id q' ∧
      Edit.pushDown ⟨{ q' with orderBy := [⟨id, .asc⟩] }, {}⟩ = .ok () ⟨p, s'⟩ ∧
      p.orderBy = [⟨.output "t" "Key" .int32, .asc⟩] ∧
      Query.resolveColumn {} "Id" .int32 ⟨2⟩ p = .ok (.output "t" "Key" .int32) p' := by
  intro id q
  have hq : q.Assembled := (Query.Assembled.fresh none).apply (.appendTable (.base "People" none "p" (some ⟨1⟩)))
    |>.apply (.appendTable (.base "Orders" none "o" (some ⟨2⟩)))
    |>.apply (.project (.named "Key" id) true)
    |>.apply (.chooseWildcard "p")
    |>.apply (.switchWildcard true)
  obtain ⟨q', h, hcovers, p, s', hpush, hkeys, hlifted⟩ : ∃ q', Query.resolveColumn {} "Id" .int32 ⟨2⟩ q = .ok id q' ∧
      q'.wildcardCovers id = false ∧ ∃ p s', Edit.pushDown ⟨{ q' with orderBy := [⟨id, .asc⟩] }, {}⟩ = .ok () ⟨p, s'⟩ ∧
        p.orderBy = [⟨.output "t" "Key" .int32, .asc⟩] ∧
        Query.lifted { q' with orderBy := [⟨id, .asc⟩] } p = [(id, .output "t" "Key" .int32)] := by
    simp only [q, id]
    exact ⟨_, rfl, rfl, _, _, rfl, rfl, rfl⟩
  obtain ⟨t, answer, p', -, hanswer, hreferences⟩ := resolveColumn_pushDown_iff {} hq h hpush
  have hsame : answer = .output "t" "Key" .int32 := by
    refine (hreferences (id, _) (by rw [hlifted]; exact List.mem_singleton_self _) (by decide)).1.2 fun _ hcovered => ?_
    rw [hcovers] at hcovered
    cases hcovered
  exact ⟨hq, q', p, s', p', h, hpush, hkeys, hsame ▸ hanswer⟩

/-- The wildcard has the identifier, and a slot has it as its key. The sort key comes to refer to the key, while a
request gives the identifier of the wildcard: `SELECT t.* FROM (SELECT p.*, p.Id AS Key FROM …) AS t ORDER BY t.Key`. -/
theorem resolveColumn_pushDown_differs :
    let id := Expr.column "p" (some ⟨1⟩) "Id" .int32
    let q : Query := {
      tables := [.base "People" none "p" (some ⟨1⟩)]
      projection := [.named "Key" id]
      starred := true }
    q.Composed ∧ ∃ q' p s' p', Query.resolveColumn {} "Id" .int32 ⟨1⟩ q = .ok id q' ∧
      Edit.pushDown ⟨(q'.orderAlso ⟨id, .asc⟩).2, {}⟩ = .ok () ⟨p, s'⟩ ∧
      p.orderBy = [⟨.output "t" "Key" .int32, .asc⟩] ∧
      Query.resolveColumn {} "Id" .int32 ⟨1⟩ p = .ok (.output "t" "Id" .int32) p' := by
  intro id q
  have hq : q.Composed := (Query.Composed.fresh none).apply (.appendTable (.base "People" none "p" (some ⟨1⟩)))
    |>.apply (.project (.named "Key" id) true)
    |>.apply (.switchWildcard true)
  refine ⟨hq, ?_⟩
  simp only [q, id]
  exact ⟨_, _, _, _, rfl, rfl, rfl, rfl⟩

end QueryTree
