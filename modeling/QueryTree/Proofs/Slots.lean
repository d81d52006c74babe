/-
No value is projected twice. A slot is added only where no slot holds the value, and a push-down, which
copies slots as they are, changes nothing but their names. So in a composed tree the slots of each query
differ from one another in more than their names.
-/
import QueryTree.Proofs.Parts
import QueryTree.Proofs.Equality.Laws

namespace QueryTree

/-! ## Members -/

theorem Assoc.keys_put {κ ν : Type} [BEq κ] [LawfulBEq κ] (key : κ) (value : ν) : ∀ entries : List (κ × ν),
    (put key value entries).map Prod.fst =
      if key ∈ entries.map Prod.fst then entries.map Prod.fst else entries.map Prod.fst ++ [key]
  | [] => rfl
  | (k, v) :: rest => by
    rw [put]
    by_cases hk : k = key
    · subst hk
      simp
    · have hne : (k == key) = false := by simpa using hk
      rw [hne, if_neg Bool.false_ne_true, List.map_cons, keys_put key value rest]
      simp only [List.map_cons, List.mem_cons, Ne.symm hk, false_or]
      split
      · rfl
      · rfl

/-- A member that is given anew takes the place of the one of its name. -/
theorem Assoc.nodup_put {κ ν : Type} [BEq κ] [LawfulBEq κ] (key : κ) (value : ν) {entries : List (κ × ν)}
    (h : (entries.map Prod.fst).Nodup) : ((put key value entries).map Prod.fst).Nodup := by
  rw [keys_put]
  split
  · exact h
  · rename_i hnew
    exact List.nodup_append.2 ⟨h, List.nodup_singleton key, fun a ha b hb heq =>
      hnew (List.mem_singleton.1 hb ▸ heq ▸ ha)⟩

namespace Query

/-! ## Slots of one query -/

/-- Different slots are structurally different, whichever of them is compared with the other. -/
def SlotsDiffer (q : Query) : Prop := q.projection.Pairwise fun a b => a.equiv b = false ∧ b.equiv a = false

theorem equiv_eq_false_of_slotOf {e a : Expr} {q : Query} (h : q.slotOf e = none) (ha : a ∈ q.projection) :
    a.equiv e = false := by
  have hnot := List.findIdx?_eq_none_iff.1 h a ha
  simpa using hnot

namespace SlotsDiffer

variable {q r : Query}

/-- What slots are called does not matter. -/
theorem of_unnamed (h : q.SlotsDiffer) (hr : r.projection.map Expr.unnamed = q.projection.map Expr.unnamed) :
    r.SlotsDiffer := by
  have hiff (es : List Expr) : (es.Pairwise fun a b => a.equiv b = false ∧ b.equiv a = false) ↔
      (es.map Expr.unnamed).Pairwise fun a b => a.equiv b = false ∧ b.equiv a = false := by
    rw [List.pairwise_map]
    simp only [Expr.unnamed_equiv, Expr.equiv_unnamed]
  rw [SlotsDiffer, hiff, hr, ← hiff]
  exact h

/-- The new slot differs from those that there were, as none of them holds its value. -/
theorem appendValue {e : Expr} (he : e.Below (Everywhere Keyed)) (hs : q.slotOf e = none) (h : q.SlotsDiffer) :
    (q.appendValue e).SlotsDiffer := by
  obtain ⟨slot, keys, hun, heq, -⟩ := appendValue_spec e q
  have hslot : slot.Below (Everywhere Keyed) := by rwa [Expr.below_congr hun]
  -- The value had no slot, and its name does not count.
  have hnew : ∀ a ∈ q.projection, a.equiv slot = false := by
    intro a ha
    rw [← Expr.equiv_unnamed, hun, Expr.equiv_unnamed]
    exact equiv_eq_false_of_slotOf hs ha
  rw [heq]
  refine List.pairwise_append.2 ⟨h, List.pairwise_singleton _ _, fun a ha b hb => ?_⟩
  rw [List.mem_singleton.1 hb]
  refine ⟨hnew a ha, ?_⟩
  rw [← Bool.not_eq_true]
  intro hequal
  have hfound : a.equiv slot = true := Expr.equiv_symm hslot hequal
  rw [hnew a ha] at hfound
  cases hfound

theorem project {e : Expr} (explicit : Bool) (he : e.Below (Everywhere Keyed)) (h : q.SlotsDiffer) :
    (q.project e explicit).2.SlotsDiffer :=
  project_keeps explicit (fun hq => hq) (fun hq hs => hq.appendValue ((Expr.below_stripCasts _).2 he) hs) h

theorem projectNothing (q : Query) : q.projectNothing.SlotsDiffer := List.Pairwise.nil

theorem expandStarTo (count : Option Nat) (hmemo : ∀ e ∈ q.memo.entries, e.Below (Everywhere Keyed))
    (h : q.SlotsDiffer) : (stateOf (Query.expandStarTo count q)).SlotsDiffer :=
  expandStarTo_keeps (fun he hq => hq.project false he) (fun hq => hq) count hmemo h

/-- The copies hold the values of the old slots, and those that are added for keys and members are new. -/
theorem pushedDown {t : String} {p c : Query} (hbelow : q.Over (Everywhere Keyed)) (h : q.SlotsDiffer)
    (hp : q.pushedDown t = .ok p) (hc : p.tables = [.nested c]) : c.SlotsDiffer := by
  obtain ⟨copies, hcopies, hfirst⟩ := firstChild_spec t q
  have hstart : (q.firstChild t).SlotsDiffer := by
    rw [hfirst]
    exact h.of_unnamed hcopies.values
  obtain ⟨c', child, hc', htables, hslots, -⟩ :=
    pushedDown_child hp hstart fun e he x hx => hx.project false (hbelow.lifted e he)
  obtain rfl : child = c := nested_eq_of_tables htables hc
  rw [SlotsDiffer, hslots]
  exact hc'

end SlotsDiffer

/-! ## Slots after an operation -/

/-- The slots hold different values, and a member has one expression. -/
structure SingleValued (q : Query) : Prop where
  slots : q.SlotsDiffer
  members : q.Keyed

theorem Everywhere.imp {L L' : Query → Prop} (himp : ∀ q, L q → L' q) {q : Query} (h : q.Everywhere L) :
    q.Everywhere L' := fun x hx => himp x (h x hx)

theorem Over.imp {P P' : Query → Prop} (himp : ∀ q, P q → P' q) {q : Query} (h : q.Over P) : q.Over P' := by
  rw [over_iff] at h ⊢
  exact fun c hc => himp c (h c hc)

/-- What stands below a query of such a tree has members that are maps. -/
theorem keyed_below {e : Expr} (h : e.Below (Everywhere SingleValued)) : e.Below (Everywhere Keyed) :=
  fun c hc => (h c hc).imp fun _ hd => hd.members

theorem over_keyed {q : Query} (h : q.Everywhere SingleValued) : q.Over (Everywhere Keyed) :=
  (everywhere_iff_over.1 h).2.imp fun _ hc => hc.imp fun _ hd => hd.members

theorem keyed_slotwise : Slotwise Keyed where
  congr h _ _ _ hmembers := by rw [Keyed, hmembers]; exact h
  addSlot {q e} _ h := by
    obtain ⟨added, hgains, -⟩ := addSlot_spec e q
    rw [Keyed, hgains.eq]
    exact h q .root

theorem SingleValued.project {e : Expr} (explicit : Bool) {q : Query} (he : e.Below (Everywhere Keyed))
    (h : q.SingleValued) : (q.project e explicit).2.SingleValued := by
  refine ⟨h.slots.project explicit he, ?_⟩
  obtain ⟨slots, keys, starred, heq⟩ := project_eq e explicit q
  rw [heq]
  exact h.members

theorem singleValued_slotwise : Slotwise SingleValued where
  congr {q r} h _ hslots _ hmembers :=
    ⟨by rw [SlotsDiffer, hslots]; exact h.slots, by rw [Keyed, hmembers]; exact h.members⟩
  addSlot he h := (h _ .root).project false (Expr.below_of_isColumn he)

/-- The enclosing query has the members of before, lifted. -/
theorem keyed_of_pushedDown {t : String} {q p : Query} (h : q.Keyed) (hp : q.pushedDown t = .ok p) :
    p.Keyed ∧ ∀ c, p.tables = [.nested c] → c.Keyed := by
  obtain ⟨c, copies, added, hmoved⟩ := pushedDown_moved hp
  have hnames : p.members.map Prod.fst = q.members.map Prod.fst := map_eq_of_forall₂ (fun _ _ hm => hm.1) hmoved.members
  refine ⟨by rw [Keyed, hnames]; exact h, fun c' hc' => ?_⟩
  obtain rfl : c = c' := nested_eq_of_tables (congrArg Query.tables hmoved.parent) hc'
  rw [Keyed, hmoved.child]
  exact List.nodup_nil

theorem PushedFirst.keyed {p : Prop} {f : Query → Query} {q r : Query} (hr : q.PushedFirst p f r) (h : q.Keyed)
    (hf : ∀ x : Query, x.Keyed → (f x).Keyed) : r.Keyed := by
  cases hr with
  | failed => exact h
  | direct => exact hf q h
  | pushed _ hp => exact hf _ (keyed_of_pushedDown h hp).1

theorem keyed_project {e : Expr} (explicit : Bool) {q : Query} (h : q.Keyed) : (q.project e explicit).2.Keyed := by
  obtain ⟨slots, keys, starred, heq⟩ := project_eq e explicit q
  rw [heq]
  exact h

/-- The enclosing query has no slots, and those of the nested one differ as they did. -/
theorem SingleValued.pushedDown {t : String} {q p : Query} (h : q.Everywhere SingleValued)
    (hp : q.pushedDown t = .ok p) : p.SingleValued ∧ ∀ c, p.tables = [.nested c] → c.SingleValued := by
  have hq : q.SingleValued := h q .root
  obtain ⟨hparent, hchild⟩ := keyed_of_pushedDown hq.members hp
  obtain ⟨c, copies, added, hmoved⟩ := pushedDown_moved hp
  refine ⟨⟨?_, hparent⟩, fun c hc => ⟨hq.slots.pushedDown (over_keyed h) hp hc, hchild c hc⟩⟩
  rw [hmoved.parent]
  exact List.Pairwise.nil

theorem PushedFirst.singleValued {p : Prop} {f : Query → Query} {q r : Query} (hr : q.PushedFirst p f r)
    (h : q.Everywhere SingleValued) (hf : ∀ x : Query, x.SingleValued → (f x).SingleValued) : r.SingleValued := by
  cases hr with
  | failed => exact h q .root
  | direct => exact hf q (h q .root)
  | pushed _ hp => exact hf _ (SingleValued.pushedDown h hp).1

/-- Only a member that is given changes which members there are, and it takes the place of the one of its name. -/
theorem keyed_run {q : Query} (h : q.Everywhere Keyed) {op : Operation} (hop : op.pages = false) (s : Session) :
    (op.run s q).Keyed := by
  have hq : q.Keyed := h q .root
  cases op with
  | resolveColumn settings column type source =>
    exact keyed_slotwise.grows (grows_resolveColumn settings column type source q) h _ .root
  | resolveProperty settings properties property source =>
    exact keyed_slotwise.grows (grows_resolveProperty settings properties property source q) h _ .root
  | project e explicit => exact keyed_project explicit hq
  | projectOnly e => exact (Edit.pushedFirst_projectOnly q s e).keyed hq fun x hx => keyed_project true hx
  | setMember member e => exact Assoc.nodup_put member e hq
  | limitTo limit => exact (Edit.pushedFirst_limitTo q s limit).keyed hq fun _ => id
  | startAfter offset => exact (Edit.pushedFirst_startAfter q s offset).keyed hq fun _ => id
  | distinctRows distinct => exact (Edit.pushedFirst_distinctRows q s distinct).keyed hq fun _ => id
  | pushDown => exact (Edit.pushedFirst_pushDown ⟨q, s⟩).keyed hq fun _ => id
  | expandStar =>
    obtain ⟨slots, keys, starred, heq⟩ := expandStarTo_eq none q
    show (stateOf (expandStarTo none q)).Keyed
    rw [heq]
    exact hq
  | projectNothing | orderAlso | orderFirst | unordered => exact hq
  | appendTable | detachTable | chooseWildcard | switchWildcard | restrict | withPredicate =>
    exact keyed_slotwise.passesBy rfl s hq
  | replacePaging => cases hop

theorem SingleValued.run {q : Query} (h : q.Everywhere SingleValued) {op : Operation} (hop : op.pages = false)
    (s : Session) (hgiven : ∀ c ∈ op.given, c.Everywhere SingleValued) : (op.run s q).SingleValued := by
  have hq : q.SingleValued := h q .root
  have hmembers : (op.run s q).Keyed := keyed_run (h.imp fun _ hx => hx.members) hop s
  have hgrows {r : Query} (hg : q.Grows r) : r.SlotsDiffer := (singleValued_slotwise.grows hg h r .root).slots
  have hterms (he : op.given = op.terms.flatMap Expr.children) : ∀ e ∈ op.terms, e.Below (Everywhere Keyed) :=
    fun e hmem => keyed_below fun c hc => hgiven c (he ▸ List.mem_flatMap.2 ⟨e, hmem, hc⟩)
  refine ⟨?_, hmembers⟩
  cases op with
  | resolveColumn settings column type source => exact hgrows (grows_resolveColumn settings column type source q)
  | resolveProperty settings properties property source =>
    exact hgrows (grows_resolveProperty settings properties property source q)
  | project e explicit => exact hq.slots.project explicit (hterms rfl e (List.mem_singleton_self e))
  | projectOnly e =>
    refine ((Edit.pushedFirst_projectOnly q s e).singleValued h fun x hx => ?_).slots
    refine SingleValued.project true (hterms rfl e (List.mem_singleton_self e)) ?_
    exact ⟨SlotsDiffer.projectNothing x, hx.members⟩
  | projectNothing => exact SlotsDiffer.projectNothing q
  | limitTo limit =>
    exact ((Edit.pushedFirst_limitTo q s limit).singleValued h fun _ hx => ⟨hx.slots, hx.members⟩).slots
  | startAfter offset =>
    exact ((Edit.pushedFirst_startAfter q s offset).singleValued h fun _ hx => ⟨hx.slots, hx.members⟩).slots
  | distinctRows distinct =>
    exact ((Edit.pushedFirst_distinctRows q s distinct).singleValued h fun _ hx => ⟨hx.slots, hx.members⟩).slots
  | pushDown => exact ((Edit.pushedFirst_pushDown ⟨q, s⟩).singleValued h fun _ => id).slots
  | expandStar => exact hq.slots.expandStarTo none (over_keyed h).memo
  | setMember | orderAlso | orderFirst | unordered => exact hq.slots
  | appendTable | detachTable | chooseWildcard | switchWildcard | restrict | withPredicate =>
    exact (singleValued_slotwise.passesBy rfl s hq).slots
  | replacePaging => cases hop

/-! ## Composed trees -/

theorem SingleValued.of_composed {q : Query} (h : q.ComposedBy fun _ op _ => op.pages = false) :
    q.Everywhere SingleValued := by
  refine singleValued_slotwise.composedBy (fun _ => ⟨List.Pairwise.nil, List.nodup_nil⟩) ?_ h
  intro q op s _ hop _ hq hgiven
  refine singleValued_slotwise.run hq hop s hgiven (SingleValued.run hq hop s hgiven) fun _ t p c hp hc => ?_
  exact (SingleValued.pushedDown hq hp).2 c hc

end Query

/-- In a tree that operations other than the paging pass compose, two slots of one query are structurally
different. -/
theorem slots_differ_of_composed {q x : Query} (hq : q.ComposedBy fun _ op _ => op.pages = false) (hx : x.Within q)
    {i j : Nat} {a b : Expr} (hij : i ≠ j) (ha : x.projection[i]? = some a) (hb : x.projection[j]? = some b) :
    a.equiv b = false := by
  have hslots : x.SlotsDiffer := (Query.SingleValued.of_composed hq x hx).slots
  obtain ⟨hi, rfl⟩ := List.getElem?_eq_some_iff.1 ha
  obtain ⟨hj, rfl⟩ := List.getElem?_eq_some_iff.1 hb
  rcases Nat.lt_or_gt_of_ne hij with hlt | hlt
  · exact (List.pairwise_iff_getElem.1 hslots i j hi hj hlt).1
  · exact (List.pairwise_iff_getElem.1 hslots j i hj hi hlt).2

/-- The slot that a push-down adds for a sort key, next to one that was there. -/
theorem slots_differ_of_sorted :
    let column (name : String) := Expr.column "p" (some ⟨1⟩) name .text
    let people := ({} : Query).appendTable (.base "People" none "p" (some ⟨1⟩))
    let sorted := ((people.project (column "Name") true).2.orderAlso ⟨column "Id", .asc⟩).2
    let q := Operation.pushDown.run {} sorted
    let t : Query := { people with name := some "t", projection := [column "Name", column "Id"] }
    t.Within q ∧ (column "Name").equiv (column "Id") = false := by
  intro column people sorted q t
  have hq : q.ComposedBy fun _ op _ => op.pages = false :=
    (Query.ComposedBy.fresh none).apply (.appendTable (.base "People" none "p" (some ⟨1⟩))) rfl
      |>.apply (.project (column "Name") true) rfl
      |>.apply (.orderAlso ⟨column "Id", .asc⟩) rfl
      |>.apply .pushDown rfl
  have hwithin : t.Within q := .part (Query.mem_parts_of_nested rfl) .root
  exact ⟨hwithin, slots_differ_of_composed hq hwithin Nat.zero_ne_one rfl rfl⟩

end QueryTree
