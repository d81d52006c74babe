/-
Sort keys that are addressed by name. When a computed value that a query is sorted by gets a slot, the
sort key comes to refer to the slot by its name. It finds it there as long as the slot keeps that name:
slots must not be taken away under such a key, and the copy that a push-down makes of the slots of a
query without a name, which gives them names, must not rename it. The paging pass treats what stands under EXISTS
in a slot and in a sort key one by one, so that of the sort keys that it leaves none may hold work for it.
-/
import Mathlib
import QueryTree.Proofs.Paging.Parts
import QueryTree.Proofs.Paging.Settled
import QueryTree.Proofs.Slots

namespace QueryTree

namespace Query

/-! ## Keys of one query -/

/-- No sort key has a name. -/
def KeysUnnamed (q : Query) : Prop := ∀ k ∈ q.orderBy, k.expr.isNamed = false

/-- A sort key with a name is one of the slots, and equals itself. -/
def KeysFound (q : Query) : Prop :=
  ∀ k ∈ q.orderBy, k.expr.isNamed = true → k.expr ∈ q.projection ∧ k.expr.equiv k.expr = true

theorem KeysUnnamed.found {q : Query} (h : q.KeysUnnamed) : q.KeysFound := fun k hk hnamed => by
  rw [h k hk] at hnamed
  cases hnamed

/-- Further slots do no harm. -/
theorem KeysFound.widen {q r : Query} (h : q.KeysFound)
    (hkeys : ∀ k ∈ r.orderBy, k ∈ q.orderBy ∨ k.expr.isNamed = false) (hslots : q.projection ⊆ r.projection) :
    r.KeysFound := by
  intro k hk hnamed
  rcases hkeys k hk with hq | hunnamed
  · obtain ⟨hslot, hself⟩ := h k hq hnamed
    exact ⟨hslots hslot, hself⟩
  · rw [hunnamed] at hnamed
    cases hnamed

/-- The named keys are found, and members below are maps, so that what equals a value is equal to itself. -/
structure Traced (q : Query) : Prop where
  found : q.KeysFound
  below : q.Over (Everywhere Keyed)

namespace Traced

variable {q r : Query}

/-- A key that comes to refer to the new slot does so since it equals its value. -/
theorem appendValue {e : Expr} (h : q.Traced) : (q.appendValue e).KeysFound := by
  have hun : (q.newSlot e).unnamed = e.unnamed := newSlot_unnamed e q
  rw [appendValue_eq]
  generalize q.newSlot e = slot at hun ⊢
  have hself (h : e.equiv e = true) : slot.equiv slot = true := by
    rw [← Expr.unnamed_equiv, ← Expr.equiv_unnamed, hun, Expr.equiv_unnamed, Expr.unnamed_equiv]
    exact h
  rcases hk : q.keyToName e with _ | i
  · exact h.found.widen (fun _ => .inl) (List.subset_append_left _ _)
  · intro k hmem hname
    rcases mem_modify_expr hmem with hold | hslot
    · obtain ⟨hslot, hequal⟩ := h.found k hold hname
      exact ⟨List.mem_append_left _ hslot, hequal⟩
    · obtain ⟨hi, hequal, -⟩ := List.findIdx?_eq_some_iff_getElem.1 (findIdx?_of_keyToName hk)
      have hkeyed : q.orderBy[i].expr.Below (Everywhere Keyed) := h.below.orderBy _ (List.getElem_mem hi)
      rw [hslot]
      refine ⟨List.mem_append_right _ (List.mem_singleton_self _), hself ?_⟩
      exact Expr.equiv_trans (Expr.equiv_symm hkeyed hequal) hequal

theorem project {e : Expr} (explicit : Bool) (he : e.Below (Everywhere Keyed)) (h : q.Traced) :
    (q.project e explicit).2.Traced := by
  have hstripped : e.stripCasts.Below (Everywhere Keyed) := by rwa [Expr.below_stripCasts]
  exact project_keeps explicit (fun hq => ⟨hq.found, { hq.below with }⟩)
    (fun hq _ => ⟨hq.appendValue, hq.below.appendValue hstripped⟩) h

theorem expandStarTo (count : Option Nat) (h : q.Traced) : (stateOf (Query.expandStarTo count q)).KeysFound :=
  have hexpanded : (stateOf (Query.expandStarTo count q)).Traced :=
    expandStarTo_keeps (fun he hq => hq.project false he) (fun hq => ⟨hq.found, { hq.below with }⟩) count h.below.memo h
  hexpanded.found

end Traced

/-! ## Keys after a push-down -/

/-- What is lifted refers to the nested query and has no name on top. -/
theorem keysUnnamed_of_pushedDown {t : String} {q p : Query} (hp : q.pushedDown t = .ok p) : p.KeysUnnamed := by
  obtain ⟨c, copies, added, hmoved⟩ := pushedDown_moved hp
  intro k hk
  obtain ⟨name, type, heq⟩ := hmoved.keys_output hk
  rw [heq]
  rfl

/-- The copies of the slots that the named keys refer to have the names that these had. -/
def CopiesKeepNames (q : Query) : Prop :=
  ∀ k ∈ q.orderBy, k.expr.isNamed = true → ∀ t, k.expr ∈ (q.firstChild t).projection

/-- Where slots are named and their names differ there is nothing to rename. -/
theorem copiesKeepNames_of_slotsNamed {q : Query} (h : q.KeysFound) (hslots : SlotsNamed q.projection) :
    q.CopiesKeepNames := by
  intro k hk hnamed t
  obtain ⟨copies, hcopies, hfirst⟩ := firstChild_spec t q
  rw [hfirst, hcopies.unchanged hslots]
  exact (h k hk hnamed).1

theorem Traced.pushedDown {t : String} {q p c : Query} (h : q.Traced)
    (hcopies : q.limit.isSome = true ∨ q.offset.isSome = true → q.CopiesKeepNames) (hp : q.pushedDown t = .ok p)
    (hc : p.tables = [.nested c]) : c.KeysFound := by
  obtain ⟨copies, hvalues, hfirst⟩ := firstChild_spec t q
  -- Sort keys stay with the nested query only where it is paged.
  by_cases hpaged : (q.limit.isNone && q.offset.isNone) = true
  · obtain ⟨c', child, -, htables, -, hkeys⟩ := pushedDown_child (Q := fun _ => True) hp trivial fun _ _ _ => id
    obtain rfl : child = c := nested_eq_of_tables htables hc
    intro k hk
    rw [hkeys, if_pos hpaged] at hk
    cases hk
  · have hpaged' : q.limit.isSome = true ∨ q.offset.isSome = true := by
      rw [Bool.and_eq_true, Option.isNone_iff_eq_none, Option.isNone_iff_eq_none] at hpaged
      rw [Option.isSome_iff_ne_none, Option.isSome_iff_ne_none]
      tauto
    have hstart : (q.firstChild t).Traced := by
      constructor
      · intro k hk hnamed
        have hold : k ∈ q.orderBy := by rwa [hfirst] at hk
        exact ⟨hcopies hpaged' k hold hnamed t, (h.found k hold hnamed).2⟩
      · rw [hfirst]
        constructor
        case projection => exact (hvalues.forall_iff Expr.below_hereditary).2 h.below.projection
        case orderBy => exact h.below.orderBy
        all_goals simp
    obtain ⟨c', child, hc', htables, hslots, hkeys⟩ :=
      pushedDown_child hp hstart fun e he x hx => hx.project false (h.below.lifted e he)
    obtain rfl : child = c := nested_eq_of_tables htables hc
    rw [if_neg hpaged] at hkeys
    rw [KeysFound, hslots, hkeys]
    exact hc'.found

end Query

/-! ## Keys after the paging pass -/

namespace Query

/-- The named keys are found, and the members are a map. -/
structure InStep (q : Query) : Prop where
  found : q.KeysFound
  members : q.Keyed

theorem Everywhere.traced {q : Query} (h : q.Everywhere InStep) : q.Traced :=
  ⟨(h q .root).found, (everywhere_iff_over.1 h).2.imp fun _ hc => hc.imp fun _ hx => hx.members⟩

/-- In a query that is not numbered, no key that has a name holds a query that is. -/
def NamedKeysSettled (q : Query) : Prop :=
  q.needsNumbering = false → ∀ k ∈ q.orderBy, k.expr.isNamed = true → k.expr.Settled

instance (q : Query) : Decidable q.NamedKeysSettled :=
  inferInstanceAs (Decidable (_ = false → ∀ k ∈ q.orderBy, k.expr.isNamed = true → k.expr.Settled))

/-- Such a key is as it was, and so is the slot that it is. -/
theorem PassedBelow.keysFound {ok : PagingPass → Prop} {q q' : Query} (h : PassedBelow PagingPass.step ok q q')
    (hsettled : ∀ k ∈ q.orderBy, k.expr.isNamed = true → k.expr.Settled) (hq : q.KeysFound) : q'.KeysFound := by
  intro k' hk' hnamed
  obtain ⟨e, he, hpassed⟩ := forall₂_mem_left h.orderBy.flip (List.mem_map_of_mem hk')
  obtain ⟨k, hk, rfl⟩ := List.mem_map.1 he
  rw [Expr.Passed.isNamed hpassed] at hnamed
  obtain ⟨hslot, hself⟩ := hq k hk hnamed
  have hsame {e' : Expr} (he' : Expr.Passed PagingPass.step k.expr e') : e' = k.expr :=
    he'.eq_of_settled (hsettled k hk hnamed)
  obtain ⟨slot', hslot', hpassed'⟩ := forall₂_mem_left h.projection hslot
  rw [hsame hpassed'] at hslot'
  rw [hsame hpassed]
  exact ⟨hslot', hself⟩

/-- A query that is not numbered stays in its order. -/
theorem Passed.orderBy_of_settled {q r : Query} (h : Passed PagingPass.step PagingPass.Goes q r)
    (hneeds : q.needsNumbering = false) (hsettled : ∀ k ∈ q.orderBy, k.expr.Settled) :
    r.orderBy.map (·.expr) = q.orderBy.map (·.expr) := by
  obtain ⟨q', hpassed, htreated⟩ := h.treated
  cases htreated with
  | kept _ =>
    have hkeys : ∀ e ∈ q.orderBy.map (·.expr), e.Settled := List.forall_mem_map.2 hsettled
    have hboth := (List.forall₂_and_left _ _).2 ⟨hkeys, hpassed.orderBy⟩
    rw [← List.forall₂_eq_eq_eq]
    exact hboth.flip.imp fun _ _ he => Expr.Passed.eq_of_settled he.2 he.1
  | replaced hq' _ =>
    rw [hpassed.needsNumbering, hneeds] at hq'
    cases hq'

/-- Where the rows are numbered no sort key has a name any more. -/
theorem Replacement.inStep {q r : Query} (w : Replacement q r) (ho : q.offset.isSome = true) (hkeyed : q.Keyed)
    (hq : q.Over (Everywhere InStep)) : r.Everywhere InStep := by
  refine everywhere_iff_over.2 ⟨⟨KeysUnnamed.found ?_, ?_⟩, w.over ho (fun x hkeys hmembers hx => ?_) hq⟩
  · intro k hk
    rw [w.orderBy] at hk
    split at hk
    · cases hk
    · exact keysUnnamed_of_pushedDown w.pushed k hk
  · rw [Keyed, w.members]
    exact (keyed_of_pushedDown hkeyed w.pushed).1
  · refine everywhere_iff_over.2 ⟨⟨KeysUnnamed.found ?_, ?_⟩, hx⟩
    · rw [KeysUnnamed, hkeys]
      simp
    · rw [Keyed, hmembers]
      exact List.nodup_nil

/-- A pass that succeeds keeps the sort keys with names in step with slots if it finds no work in them. -/
theorem inStep_of_passed (q : Query) : q.Everywhere InStep → (∀ x ∈ q.queries, x.NamedKeysSettled) →
    ∀ {r : Query}, Passed PagingPass.step PagingPass.Goes q r → r.Everywhere InStep := by
  induction q using Query.induct with
  | h q ih =>
    intro hq hsettled r h
    obtain ⟨q', hpassed, htreated⟩ := h.treated
    obtain ⟨hroot, hover⟩ := everywhere_iff_over.1 hq
    obtain ⟨hkeys, hbelow⟩ := forall_mem_queries.1 hsettled
    have hmembers : q'.members = q.members := by rw [hpassed.same]
    have hmemo : q'.memo = q.memo := by rw [hpassed.same]
    have hkeyed : q'.Keyed := by rw [Keyed, hmembers]; exact hroot.members
    -- The queries in members and in the memo are no matter of the pass.
    have hover' : q'.Over (Everywhere InStep) := by
      rw [over_iff] at hover ⊢
      intro c' hc'
      rw [parts, hmembers, hmemo, List.append_assoc] at hc'
      rcases List.mem_append.1 hc' with hc' | hc'
      · obtain ⟨c, hc, hp⟩ := forall₂_mem_left hpassed.children.flip hc'
        exact ih c hc (hover c (by rw [parts, List.append_assoc]; exact List.mem_append_left _ hc)) (hbelow c hc) hp
      · exact hover c' (by rw [parts, List.append_assoc]; exact List.mem_append_right _ hc')
    cases htreated with
    | kept hneeds =>
      rw [hpassed.needsNumbering] at hneeds
      exact everywhere_iff_over.2 ⟨⟨hpassed.keysFound (hkeys hneeds) hroot.found, hkeyed⟩, hover'⟩
    | replaced hneeds hd =>
      obtain ⟨w⟩ := Edit.replacement_of_ok hd
      exact w.inStep (needsNumbering_iff.1 hneeds).1 hkeyed hover'

theorem InStep.replacePaging {dialect : Dialect} {named : Nat} {q : Query} {s : Session} (hq : q.Everywhere InStep)
    (hpaged : dialect.hasOffset = false → dialect.hasWindows = true →
      (∃ n, (dialect.replacePaging named q s).result = .ok n) ∧ ∀ x ∈ q.queries, x.NamedKeysSettled) :
    (dialect.replacePaging named q s).query.Everywhere InStep := by
  by_cases hd : dialect.hasOffset = false ∧ dialect.hasWindows = true
  · obtain ⟨⟨n, hn⟩, hsettled⟩ := hpaged hd.1 hd.2
    exact q.inStep_of_passed hq hsettled (Dialect.passed_of_ok hd.1 hd.2 hn)
  · -- Any other dialect has no need of the pass.
    have hskip : (dialect.hasOffset || !dialect.hasWindows) = true := by
      revert hd; cases dialect.hasOffset <;> cases dialect.hasWindows <;> simp
    rw [Dialect.replacePaging, if_pos hskip]
    exact hq

end Query

/-! ## Operations that keep names and keys in step -/

/-- The sort keys that the operation is given. -/
def Operation.newKeys : Operation → List OrderKey
  | orderAlso key => [key]
  | orderFirst keys => keys
  | _ => []

/-- The operation takes all slots away from the query as it is. -/
def Operation.clears (q : Query) : Operation → Bool
  | projectNothing => true
  | projectOnly e => !(projectOnly e).pushesFirst q
  | _ => false

/-- The keys that the operation is given have no names, and named keys do not lose their slots. A paging pass
succeeds, and finds no work in named keys of queries that it does not number. -/
structure Query.KeepsInStep (q : Query) (op : Operation) (s : Session) : Prop where
  paged : ∀ dialect named, op = .replacePaging dialect named → dialect.hasOffset = false → dialect.hasWindows = true →
    (∃ n, (dialect.replacePaging named q s).result = .ok n) ∧ ∀ x ∈ q.queries, x.NamedKeysSettled
  unnamed : ∀ k ∈ op.newKeys, k.expr.isNamed = false
  cleared : op.clears q = true → q.KeysUnnamed
  copied : op.pushesFirst q = true → q.name = none → q.limit.isSome = true ∨ q.offset.isSome = true →
    q.CopiesKeepNames

namespace Query

theorem keysFound_slotwise : Slotwise KeysFound where
  congr {q r} h _ hslots hkeys _ := h.widen (fun k hk => .inl (hkeys ▸ hk)) (by rw [hslots]; exact List.Subset.refl _)
  addSlot {q e} he h := by
    -- A column is not addressed by name, and so no key comes to refer to its slot.
    have hq : q.KeysFound := h q .root
    simp only [addSlot, project, stripCasts_of_column he, Bool.false_eq_true, if_false]
    split
    · exact hq
    · have hcolumn : q.keyToName e = none := by rw [keyToName, if_pos he]
      unfold appendValue
      simp only [hcolumn]
      exact hq.widen (fun _ => .inl) (List.subset_append_left _ _)

/-- The enclosing query has no slots, its keys have no names, and nothing but the nested query is below it. -/
theorem Traced.parent {t : String} {q p : Query} (h : q.Traced) (hp : q.pushedDown t = .ok p) : p.Traced := by
  refine ⟨(keysUnnamed_of_pushedDown hp).found, ?_⟩
  obtain ⟨c, copies, added, hmoved⟩ := pushedDown_moved hp
  obtain ⟨c', htables, hc, hparent⟩ := h.below.pushedDown hp
  refine hparent (everywhere_iff_over.2 ⟨?_, hc⟩)
  obtain rfl : c = c' := nested_eq_of_tables (congrArg Query.tables hmoved.parent) htables
  rw [Keyed, hmoved.child]
  exact List.nodup_nil

theorem PushedFirst.keysFound {p : Prop} {f : Query → Query} {q r : Query} (hr : q.PushedFirst p f r) (h : q.Traced)
    (hf : ∀ x : Query, x.KeysFound → (f x).KeysFound) : r.KeysFound := by
  cases hr with
  | failed => exact h.found
  | direct => exact hf q h.found
  | pushed _ hp => exact hf _ (keysUnnamed_of_pushedDown hp).found

/-- Where no key has a name all slots may go and a new one be added. -/
theorem Traced.projectOnly {q : Query} {e : Expr} (h : q.Traced) (hkeys : q.KeysUnnamed)
    (he : e.Below (Everywhere Keyed)) : (q.projectNothing.project e true).2.KeysFound := by
  have hnothing : q.projectNothing.Traced := ⟨KeysUnnamed.found hkeys, h.below.projectNothing⟩
  exact (hnothing.project true he).found

theorem Traced.run {q : Query} (h : q.Traced) {op : Operation} {s : Session} (hop : q.KeepsInStep op s)
    (hpages : op.pages = false) (hgrows : ∀ r, q.Grows r → r.KeysFound)
    (hterms : ∀ e ∈ op.terms, e.Below (Everywhere Keyed)) : (op.run s q).KeysFound := by
  cases op with
  | resolveColumn settings column type source => exact hgrows _ (grows_resolveColumn settings column type source q)
  | resolveProperty settings properties property source =>
    exact hgrows _ (grows_resolveProperty settings properties property source q)
  | project e explicit => exact (h.project explicit (hterms e (List.mem_singleton_self e))).found
  | projectOnly e =>
    have he : e.Below (Everywhere Keyed) := hterms e (List.mem_singleton_self e)
    have hr := Edit.pushedFirst_projectOnly q s e
    show (stateOf (Edit.projectOnly e ⟨q, s⟩)).query.KeysFound
    generalize (stateOf (Edit.projectOnly e ⟨q, s⟩)).query = r at hr
    -- In place, the slots go away from under the keys; after a push-down the keys have no names.
    cases hr with
    | failed => exact h.found
    | direct hnot => exact h.projectOnly (hop.cleared (by simpa [Operation.clears] using hnot)) he
    | pushed _ hp => exact (h.parent hp).projectOnly (keysUnnamed_of_pushedDown hp) he
  | projectNothing => exact KeysUnnamed.found (hop.cleared rfl)
  | orderAlso key =>
    refine h.found.widen (fun k hk => ?_) (List.Subset.refl _)
    rcases mem_addKey hk with rfl | hk
    · exact .inr (hop.unnamed _ (List.mem_singleton_self _))
    · exact .inl hk
  | orderFirst keys =>
    exact h.found.widen (fun k hk => (mem_foldl_addKey hk).imp_right (hop.unnamed k)) (List.Subset.refl _)
  | unordered =>
    intro k hk
    cases hk
  | limitTo limit => exact (Edit.pushedFirst_limitTo q s limit).keysFound h fun _ => id
  | startAfter offset => exact (Edit.pushedFirst_startAfter q s offset).keysFound h fun _ => id
  | distinctRows distinct => exact (Edit.pushedFirst_distinctRows q s distinct).keysFound h fun _ => id
  | pushDown => exact (Edit.pushedFirst_pushDown ⟨q, s⟩).keysFound h fun _ => id
  | expandStar => exact h.expandStarTo none
  | setMember => exact h.found
  | appendTable | detachTable | chooseWildcard | switchWildcard | restrict | withPredicate =>
    exact keysFound_slotwise.passesBy rfl s h.found
  | replacePaging => cases hpages

/-! ## Composed trees -/

theorem inStep_slotwise : Slotwise InStep where
  congr h hname hslots hkeys hmembers :=
    ⟨keysFound_slotwise.congr h.found hname hslots hkeys hmembers,
      keyed_slotwise.congr h.members hname hslots hkeys hmembers⟩
  addSlot he h :=
    ⟨keysFound_slotwise.addSlot he (h.imp fun _ hx => hx.found),
      keyed_slotwise.addSlot he (h.imp fun _ hx => hx.members)⟩

theorem InStep.of_composed {q : Query} (h : q.ComposedBy KeepsInStep) : q.Everywhere InStep := by
  refine inStep_slotwise.composedBy (fun _ => ⟨fun _ hk => absurd hk List.not_mem_nil, List.nodup_nil⟩) ?_ h
  intro q op s hcomposed hop _ hq hgiven
  cases hpages : op.pages with
  | true =>
    cases op with
    | replacePaging dialect named => exact InStep.replacePaging hq (hop.paged dialect named rfl)
    | _ => cases hpages
  | false =>
    have htraced : q.Traced := hq.traced
    refine inStep_slotwise.run hq hpages s hgiven ⟨?_, keyed_run (hq.imp fun _ hx => hx.members) hpages s⟩
      fun hfirst t p c hp hc => ⟨?_, (keyed_of_pushedDown (hq q .root).members hp).2 c hc⟩
    · refine htraced.run hop hpages (fun r hg => (inStep_slotwise.grows hg hq r .root).found) fun e he c hc => ?_
      refine (hgiven c ?_).imp fun _ hx => hx.members
      -- A query in a term that the operation is given is itself given.
      cases op with
      | appendTable => cases he
      | _ => exact List.mem_flatMap.2 ⟨e, he, hc⟩
    · refine htraced.pushedDown (fun hpaged => ?_) hp hc
      rcases hname : q.name with _ | name
      · exact hop.copied hfirst hname hpaged
      · refine copiesKeepNames_of_slotsNamed htraced.found ?_
        exact (hcomposed.composed.sound q .root).slots (by rw [hname]; rfl)

end Query

/-- In a tree composed by operations that keep slots and sort keys in step, a sort key with a name is one
of the slots of its query, and structurally equal to it. Where slots are named and their names differ, as
they do in every query with a name, no other slot has its name. -/
theorem named_keys_of_composed {q x : Query} (hq : q.ComposedBy Query.KeepsInStep) (hx : x.Within q) {n : String}
    {inner : Expr} {direction : Direction} (hk : ⟨.named n inner, direction⟩ ∈ x.orderBy) :
    ∃ i : Nat, x.projection[i]? = some (.named n inner) ∧ (Expr.named n inner).equiv (.named n inner) = true ∧
      (x.name.isSome = true ∨ SlotsNamed x.projection → ∀ (j : Nat) (slot : Expr) (m : String),
        x.projection[j]? = some slot → slot.outputName = some m → Name.clash n m = true → j = i) := by
  obtain ⟨hmem, hself⟩ := (Query.InStep.of_composed hq x hx).found _ hk rfl
  obtain ⟨i, hi⟩ := List.mem_iff_getElem?.1 hmem
  refine ⟨i, hi, hself, fun hdiffer j slot m hj hm hclash => ?_⟩
  have hslots : SlotsNamed x.projection := hdiffer.elim (hq.composed.sound x hx).slots id
  by_contra hne
  rw [hslots.clash_eq_false (Ne.symm hne) hi hj rfl hm] at hclash
  cases hclash

/-- The value `t.Id + 1`, by which a query over a page of people is sorted, is its second computed slot, also once the
rows of the page are numbered. -/
theorem named_keys_of_second_slot :
    let next := Expr.binary .add (.output "t" "Id" .int32) (.int 1)
    let page : Query := {
      tables := [.base "People" none "p" (some ⟨1⟩)]
      offset := some (.int 2)
      name := some "t" }
    let q : Query := {
      tables := [.nested page]
      projection := [.named "c" (.int 1), .named "c0" next]
      orderBy := [⟨.named "c0" next, .asc⟩]
      name := some "n" }
    let r := (Operation.replacePaging Dialect.withoutOffset 0).run {} q
    r.ComposedBy Query.KeepsInStep ∧ r.orderBy.map (·.expr) = q.orderBy.map (·.expr) ∧ page.needsNumbering = true ∧
      r.Settled ∧
      ∃ i : Nat, r.projection[i]? = some (.named "c0" next) ∧ ∀ (j : Nat) (slot : Expr) (m : String),
        r.projection[j]? = some slot → slot.outputName = some m → Name.clash "c0" m = true → j = i := by
  intro next page q r
  have hplain {x : Query} {op : Operation} (hp : op.pages = false) (hk : ∀ k ∈ op.newKeys, k.expr.isNamed = false)
      (hc : op.clears x = false) (hf : op.pushesFirst x = false) : x.KeepsInStep op {} := by
    refine ⟨fun dialect named h => ?_, hk, fun h => ?_, fun h => ?_⟩
    · rw [h] at hp
      cases hp
    · rw [hc] at h
      cases h
    · rw [hf] at h
      cases h
  have hpage : page.ComposedBy Query.KeepsInStep :=
    (Query.ComposedBy.fresh (some "t")).apply (.appendTable (.base "People" none "p" (some ⟨1⟩)))
        (hplain rfl (by simp [Operation.newKeys]) rfl rfl)
      |>.apply (.startAfter (some (.int 2))) (hplain rfl (by simp [Operation.newKeys]) rfl rfl)
  have htable : Query.ComposedBy Query.KeepsInStep { tables := [.nested page], name := some "n" } := by
    refine .operation (.appendTable (.nested page)) {} (.fresh (some "n"))
      (hplain rfl (by simp [Operation.newKeys]) rfl rfl) fun c hc => ?_
    rw [List.mem_singleton.1 hc]
    exact hpage
  have hrun : q = (((({ tables := [.nested page], name := some "n" } : Query).project (.int 1) true).2.orderAlso
      ⟨next, .asc⟩).2.project next true).2 := by cbv
  have hq : q.ComposedBy Query.KeepsInStep := by
    rw [hrun]
    exact htable.apply (.project (.int 1) true) (hplain rfl (by simp [Operation.newKeys]) rfl rfl)
      |>.apply (.orderAlso ⟨next, .asc⟩) (hplain rfl (by simp [Operation.newKeys, next, Expr.isNamed]) rfl rfl)
      |>.apply (.project next true) (hplain rfl (by simp [Operation.newKeys]) rfl rfl)
  have hresult : (Dialect.withoutOffset.replacePaging 0 q {}).result = .ok 1 := by decide +kernel
  have hpass : q.KeepsInStep (.replacePaging Dialect.withoutOffset 0) {} := by
    refine ⟨fun dialect named h _ _ => ?_, by simp [Operation.newKeys], fun h => ?_, fun h => ?_⟩
    · cases h
      exact ⟨⟨1, hresult⟩, by decide +kernel⟩
    · cases h
    · cases h
  have hr : r.ComposedBy Query.KeepsInStep := hq.apply _ hpass
  have hsettled : ∀ k ∈ q.orderBy, k.expr.Settled := by decide +kernel
  have hsorted : r.orderBy.map (·.expr) = q.orderBy.map (·.expr) :=
    Query.Passed.orderBy_of_settled (q := q) (r := r) (Dialect.passed_of_ok rfl rfl hresult) rfl hsettled
  have hname : r.name.isSome = true := by decide +kernel
  obtain ⟨⟨e, direction⟩, hkey, rfl⟩ : ∃ k ∈ r.orderBy, k.expr = .named "c0" next :=
    List.mem_map.1 (by rw [hsorted]; exact List.mem_singleton_self _)
  obtain ⟨i, hi, -, hunique⟩ := named_keys_of_composed hr .root hkey
  exact ⟨hr, hsorted, rfl, by decide +kernel, i, hi, hunique (.inl hname)⟩

/-- Without a name for the query its first slot gets the name of the second one when the slots are copied:
`SELECT 1 AS c, (p.Id + 1) AS c0 FROM People AS p ORDER BY c ASC LIMIT 5`. -/
theorem named_keys_of_renamed_slot :
    let next := Expr.binary .add (.column "p" (some ⟨1⟩) "Id" .int32) (.int 1)
    let people := ({} : Query).appendTable (.base "People" none "p" (some ⟨1⟩))
    let q : Query :=
      { people with
        projection := [.int 1, .named "c" next], orderBy := [⟨.named "c" next, .asc⟩], limit := some (.int 5) }
    let p := Operation.pushDown.run {} q
    let t : Query := { q with projection := [.named "c" (.int 1), .named "c0" next], name := some "t" }
    p.ComposedBy (fun _ op _ => ∀ k ∈ op.newKeys, k.expr.isNamed = false) ∧ t.Within p ∧
      ⟨.named "c" next, .asc⟩ ∈ t.orderBy ∧
      ∀ slot ∈ t.projection, ∀ m, slot.outputName = some m → Name.clash "c" m = true →
        slot.equiv (.named "c" next) = false := by
  intro next people q p t
  have hrun : q = (Operation.limitTo (some (.int 5))).run {}
      ((((people.project (.int 1) true).2.orderAlso ⟨next, .asc⟩).2).project next true).2 := by rfl
  have hq : q.ComposedBy fun _ op _ => ∀ k ∈ op.newKeys, k.expr.isNamed = false := by
    rw [hrun]
    exact (Query.ComposedBy.fresh none).apply (.appendTable (.base "People" none "p" (some ⟨1⟩)))
        (by simp [Operation.newKeys])
      |>.apply (.project (.int 1) true) (by simp [Operation.newKeys])
      |>.apply (.orderAlso ⟨next, .asc⟩) (by simp [Operation.newKeys, next, Expr.isNamed])
      |>.apply (.project next true) (by simp [Operation.newKeys])
      |>.apply (.limitTo (some (.int 5))) (by simp [Operation.newKeys])
  have hp : p.ComposedBy fun _ op _ => ∀ k ∈ op.newKeys, k.expr.isNamed = false :=
    hq.apply .pushDown (by simp [Operation.newKeys])
  have htables : p.tables = [.nested t] := by
    show (Operation.pushDown.run {} q).tables = [.nested t]
    cbv
  clear_value p
  refine ⟨hp, .part (Query.mem_parts_of_nested htables) .root, List.mem_singleton_self _,
    fun slot hslot m hm hclash => ?_⟩
  rcases List.mem_cons.1 hslot with rfl | hslot
  · rfl
  · rw [List.mem_singleton.1 hslot] at hm
    cases hm
    exact absurd hclash (by decide +kernel)

end QueryTree
