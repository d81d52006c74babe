/-
Where the parts of a query come from. What stands right below a query after an operation stood there
before or came with what the operation is given, but for two kinds of queries: the nested query that a
push-down makes, and nested queries in which a column has been bound. A property of the slots, sort
keys and members of a query therefore holds everywhere in a tree if it holds of these and of the root.
-/
import QueryTree.Proofs.Composed
import QueryTree.Proofs.Failure

namespace QueryTree

/-! ## Operations that push down first -/

namespace Operation

/-- The operation is the paging pass. -/
def pages : Operation → Bool
  | replacePaging _ _ => true
  | _ => false

/-- The operation has no part in slots, sort keys and members. -/
def passesBy : Operation → Bool
  | appendTable _ | detachTable _ | chooseWildcard _ | switchWildcard _ | restrict _ | withPredicate _ => true
  | _ => false

/-- The operation pushes the query down before it does anything else. -/
def pushesFirst (q : Query) : Operation → Bool
  | projectOnly _ => q.limit.isSome || q.distinct
  | limitTo limit => limit.isSome && q.limit.isSome
  | startAfter offset => offset.isSome && (q.limit.isSome || q.offset.isSome)
  | distinctRows distinct => distinct && (q.limit.isSome || q.offset.isSome)
  | pushDown => true
  | _ => false

end Operation

/-- What is left of `q` by a change `f` for which `q` is pushed down first if `p` holds. Where this
fails nothing is changed. -/
inductive Query.PushedFirst (p : Prop) (f : Query → Query) (q : Query) : Query → Prop
  | failed : p → PushedFirst p f q q
  | direct : ¬ p → PushedFirst p f q (f q)
  | pushed {t : String} {r : Query} : p → q.pushedDown t = .ok r → PushedFirst p f q (f r)

namespace Edit

theorem pushedFirst_pushDown (d : Draft) : d.query.PushedFirst True id (stateOf (pushDown d)).query := by
  rcases h : pushDown d with ⟨⟨⟩, d'⟩ | ⟨e, d'⟩
  · obtain ⟨t, -, hp⟩ := pushDown_ok h
    exact .pushed trivial hp
  · rcases pushDown_error h with rfl | ⟨name, -, -, hq⟩
    · exact .failed trivial
    · change d.query.PushedFirst True id d'.query
      rw [hq]
      exact .failed trivial

theorem pushedFirst_whenThen {α : Type} {p : Prop} [Decidable p] {f : Query → Query} (rest : Unit → Edit α)
    (hrest : ∀ d, (stateOf (rest () d)).query = f d.query) (d : Draft) :
    d.query.PushedFirst p f (stateOf ((if p then pushDown >>= rest else rest ()) d)).query := by
  by_cases hp : p
  · rw [if_pos hp]
    change d.query.PushedFirst p f (stateOf (EStateM.bind pushDown rest d)).query
    have hpush := pushedFirst_pushDown d
    unfold EStateM.bind
    rcases h : pushDown d with ⟨⟨⟩, d'⟩ | ⟨e, d'⟩
    · obtain ⟨t, -, hd⟩ := pushDown_ok h
      simp only [hrest]
      exact .pushed hp hd
    · rcases pushDown_error h with rfl | ⟨name, -, -, hq⟩
      · exact .failed hp
      · change d.query.PushedFirst p f d'.query
        rw [hq]
        exact .failed hp
  · rw [if_neg hp, hrest]
    exact .direct hp

variable (q : Query) (s : Session)

theorem pushedFirst_limitTo (limit : Option Expr) :
    q.PushedFirst ((Operation.limitTo limit).pushesFirst q = true) ({ · with limit })
      (stateOf (limitTo limit ⟨q, s⟩)).query :=
  pushedFirst_whenThen (fun _ => modifyQuery ({ · with limit })) (fun _ => rfl) ⟨q, s⟩

theorem pushedFirst_startAfter (offset : Option Expr) :
    q.PushedFirst ((Operation.startAfter offset).pushesFirst q = true) ({ · with offset })
      (stateOf (startAfter offset ⟨q, s⟩)).query :=
  pushedFirst_whenThen (fun _ => modifyQuery ({ · with offset })) (fun _ => rfl) ⟨q, s⟩

theorem pushedFirst_distinctRows (distinct : Bool) :
    q.PushedFirst ((Operation.distinctRows distinct).pushesFirst q = true) ({ · with distinct })
      (stateOf (distinctRows distinct ⟨q, s⟩)).query :=
  pushedFirst_whenThen (fun _ => modifyQuery ({ · with distinct })) (fun _ => rfl) ⟨q, s⟩

theorem pushedFirst_projectOnly (e : Expr) :
    q.PushedFirst ((Operation.projectOnly e).pushesFirst q = true) (fun r => (r.projectNothing.project e true).2)
      (stateOf (projectOnly e ⟨q, s⟩)).query :=
  pushedFirst_whenThen (fun _ => do
    modifyQuery Query.projectNothing
    modifyGet fun d => ((d.query.project e true).1, { d with query := (d.query.project e true).2 }))
    (fun _ => rfl) ⟨q, s⟩

end Edit

/-! ## Parts -/

namespace Query

/-- Every part of the query has the property, wherever it stands. -/
structure Over (P : Query → Prop) (q : Query) : Prop where
  tables : ∀ t ∈ q.tables, t.Below P
  projection : ∀ e ∈ q.projection, e.Below P
  predicate : ∀ e ∈ q.predicate, e.Below P
  orderBy : ∀ k ∈ q.orderBy, k.expr.Below P
  limit : ∀ e ∈ q.limit, e.Below P
  offset : ∀ e ∈ q.offset, e.Below P
  members : ∀ m ∈ q.members, m.2.Below P
  memo : ∀ e ∈ q.memo.entries, e.Below P

/-- What a push-down lifts are the sort keys and the members. -/
theorem Over.lifted {P : Query → Prop} {q : Query} (h : q.Over P) :
    ∀ e ∈ q.orderBy.map (·.expr) ++ q.members.map (·.2), e.Below P :=
  List.forall_mem_append.2 ⟨List.forall_mem_map.2 h.orderBy, List.forall_mem_map.2 h.members⟩

theorem over_iff {P : Query → Prop} {q : Query} : q.Over P ↔ ∀ c ∈ q.parts, P c := by
  have hparts : (∀ c ∈ q.parts, P c) ↔
      q.Below P ∧ (∀ m ∈ q.members, m.2.Below P) ∧ ∀ e ∈ q.memo.entries, e.Below P := by
    simp only [parts, Below, Expr.Below, List.forall_mem_append, List.forall_mem_flatMap, and_assoc]
  rw [hparts, below_iff]
  constructor
  · rintro ⟨htables, hslots, hpredicate, hkeys, hlimit, hoffset, hmembers, hmemo⟩
    exact ⟨⟨htables, hslots, hpredicate, hkeys, hlimit, hoffset⟩, hmembers, hmemo⟩
  · rintro ⟨⟨htables, hslots, hpredicate, hkeys, hlimit, hoffset⟩, hmembers, hmemo⟩
    exact ⟨htables, hslots, hpredicate, hkeys, hlimit, hoffset, hmembers, hmemo⟩

theorem mem_parts_of_nested {q c : Query} (h : q.tables = [.nested c]) : c ∈ q.parts := by
  simp [parts, children, h, Table.children]

theorem everywhere_iff_over {L : Query → Prop} {q : Query} : q.Everywhere L ↔ L q ∧ q.Over (Everywhere L) := by
  rw [everywhere_iff_parts, over_iff]

namespace Over

variable {P : Query → Prop} {q r : Query}

theorem appendValue {e : Expr} (he : e.Below P) (h : q.Over P) : (q.appendValue e).Over P := by
  obtain ⟨slot, keys, hun, heq, -, -, hsort⟩ := appendValue_spec e q
  have hslot : slot.Below P := by rwa [Expr.below_congr hun]
  rw [heq]
  exact { h with
    projection := List.forall_mem_append.2 ⟨h.projection, by simpa using hslot⟩
    orderBy := fun k hk => (hsort k hk).elim (h.orderBy k) fun hk => hk ▸ hslot }

theorem project {e : Expr} (explicit : Bool) (he : e.Below P) (h : q.Over P) : (q.project e explicit).2.Over P :=
  project_keeps explicit (fun hq => { hq with }) (fun hq _ => hq.appendValue ((Expr.below_stripCasts _).2 he)) h

theorem expandStarTo (count : Option Nat) (h : q.Over P) : (stateOf (Query.expandStarTo count q)).Over P :=
  expandStarTo_keeps (fun he hq => hq.project false he) (fun hq => { hq with }) count h.memo h

theorem projectNothing (h : q.Over P) : q.projectNothing.Over P :=
  { h with projection := fun _ he => absurd he List.not_mem_nil }

/-- The nested query takes over what was below the old one, and the enclosing query has no part but that one. -/
theorem pushedDown {t : String} {p : Query} (h : q.Over P) (hp : q.pushedDown t = .ok p) :
    ∃ c, p.tables = [.nested c] ∧ c.Over P ∧ (P c → p.Over P) := by
  obtain ⟨c, copies, added, hmoved⟩ := pushedDown_moved hp
  obtain ⟨hslots, hkeys⟩ := hmoved.inherits Expr.below_hereditary h.projection h.orderBy h.members
  refine ⟨c, by rw [hmoved.parent], ?_, fun hc => ?_⟩
  · rw [hmoved.child] at hslots hkeys ⊢
    exact { h with
      projection := hslots
      orderBy := hkeys
      members := fun _ hm => absurd hm List.not_mem_nil }
  · constructor
    case orderBy => exact hmoved.below_keys
    case members => exact hmoved.below_members
    case tables =>
      rw [hmoved.parent]
      intro u hu x hx
      rw [List.mem_singleton.1 hu] at hx
      rwa [List.mem_singleton.1 hx]
    all_goals
      rw [hmoved.parent]
      simp

theorem withTables {ts : List Table} {choice : Option String} (h : q.Over P) (ht : ∀ t ∈ ts, t ∈ q.tables ∨ t.Below P) :
    { q with tables := ts, wildcardChoice := choice }.Over P :=
  { h with tables := fun t hmem => (ht t hmem).elim (h.tables t) id }

theorem remember {e : Expr} (threshold : Nat) (he : e.isColumn = true) (h : q.Over P) :
    { q with memo := (q.memo.remember threshold e).2 }.Over P := by
  refine { h with memo := ?_ }
  rcases StarMemo.remember_cases threshold e q.memo with ⟨entry, -, -, heq⟩ | ⟨-, heq⟩
  · rw [heq]
    exact h.memo
  · rw [heq]
    refine List.forall_mem_append.2 ⟨h.memo, fun x hx => ?_⟩
    rw [List.mem_singleton.1 hx]
    exact Expr.below_of_isColumn (Expr.isColumn_unnamed he)

theorem withPart {c : Query} {t : Table} {i : Nat} (h : q.Over P) (ht : q.tables[i]? = some t) (hc : P c) :
    { q with tables := q.tables.set i (t.withUnjoined (.nested c)) }.Over P := by
  refine h.withTables fun u hu => ?_
  rcases List.mem_or_eq_of_mem_set hu with hu | rfl
  · exact .inl hu
  · exact .inr (Table.below_withUnjoined hc (h.tables t (List.mem_of_getElem? ht)))

/-- Binding a column adds nothing below but columns, here or in a nested query. -/
theorem grows (hP : ∀ c c' : Query, P c → c.Grows c' → P c') (hg : q.Grows r) : q.Over P → r.Over P := by
  induction hg with
  | refl _ => exact id
  | trans _ _ ih ih' => exact ih' ∘ ih
  | slot _ he => exact fun h => h.project false (Expr.below_of_isColumn he)
  | memo _ threshold he => exact fun h => h.remember threshold he
  | @table q c c' t i hi hc hg _ =>
    intro h
    have hbelow : P c := h.tables t (List.mem_of_getElem? hi) c (Table.mem_children_of_query? hc)
    exact h.withPart hi (hP c c' hbelow hg)

end Over
end Query

/-! ## Parts after an operation -/

namespace Query

theorem PushedFirst.over {P : Query → Prop} {p : Prop} {f : Query → Query} {q r : Query} (h : q.PushedFirst p f r)
    (hq : q.Over P) (hf : ∀ x : Query, x.Over P → (f x).Over P)
    (hpushed : p → ∀ t p c, q.pushedDown t = .ok p → p.tables = [.nested c] → c.Over P → P c) : r.Over P := by
  cases h with
  | failed => exact hq
  | direct => exact hf q hq
  | pushed hfirst hp =>
    obtain ⟨c, htables, hc, hparent⟩ := hq.pushedDown hp
    exact hf _ (hparent (hpushed hfirst _ _ c hp htables hc))

/-- After an operation other than the paging pass a part is one from before, one that the operation is
given, the nested query of a push-down, or a nested query in which a column has been bound. -/
theorem Over.run {P : Query → Prop} {q : Query} (h : q.Over P) {op : Operation} (hop : op.pages = false) (s : Session)
    (hgiven : ∀ c ∈ op.given, P c) (hgrows : ∀ c c' : Query, P c → c.Grows c' → P c')
    (hpushed : op.pushesFirst q = true → ∀ t p c, q.pushedDown t = .ok p → p.tables = [.nested c] → c.Over P → P c) :
    (op.run s q).Over P := by
  -- Of all operations only `appendTable` is given a table; the others are given terms.
  have hterms (he : op.given = op.terms.flatMap Expr.children) : ∀ e ∈ op.terms, e.Below P :=
    fun e hmem c hc => hgiven c (he ▸ List.mem_flatMap.2 ⟨e, hmem, hc⟩)
  cases op with
  | appendTable t =>
    refine h.withTables fun u hu => ?_
    rcases List.mem_append.1 hu with hu | hu
    · exact .inl hu
    · rw [List.mem_singleton.1 hu]
      exact .inr hgiven
  | detachTable name =>
    show (q.detachTable name).2.Over P
    unfold detachTable
    split
    · exact h
    · exact h.withTables fun t ht => .inl (List.mem_of_mem_eraseIdx ht)
  | chooseWildcard name =>
    show (stateOf (chooseWildcard name q)).Over P
    rw [chooseWildcard_eq]
    split
    · exact { h with }
    · exact h
  | switchWildcard starred =>
    show (stateOf (switchWildcard starred q)).Over P
    rw [switchWildcard_eq]
    split
    · exact h
    · exact { h with }
  | resolveColumn settings column type source =>
    exact h.grows hgrows (grows_resolveColumn settings column type source q)
  | resolveProperty settings properties property source =>
    exact h.grows hgrows (grows_resolveProperty settings properties property source q)
  | project e explicit => exact h.project explicit (hterms rfl e (List.mem_singleton_self e))
  | projectOnly e =>
    refine (Edit.pushedFirst_projectOnly q s e).over h (fun x hx => ?_) hpushed
    exact hx.projectNothing.project true (hterms rfl e (List.mem_singleton_self e))
  | projectNothing => exact h.projectNothing
  | setMember member e =>
    refine { h with members := fun m hm => ?_ }
    rcases Assoc.mem_put hm with rfl | hm
    · exact hterms rfl e (List.mem_singleton_self e)
    · exact h.members m hm
  | restrict e =>
    refine { h with predicate := fun x hx => ?_ }
    cases hx
    have he := hterms rfl e (List.mem_singleton_self e)
    rcases hp : q.predicate with _ | old
    · exact he
    · exact (Expr.below_binary ..).2 ⟨h.predicate old hp, he⟩
  | withPredicate e => exact { h with predicate := fun x hx => hterms rfl x (Option.mem_toList.2 hx) }
  | orderAlso key =>
    refine { h with orderBy := fun k hk => ?_ }
    rcases mem_addKey hk with rfl | hk
    · exact hterms rfl _ (List.mem_singleton_self _)
    · exact h.orderBy k hk
  | orderFirst keys =>
    exact { h with
      orderBy := fun k hk => (mem_foldl_addKey hk).elim (h.orderBy k) fun hk => hterms rfl _ (List.mem_map_of_mem hk) }
  | unordered => exact { h with orderBy := fun _ hk => absurd hk List.not_mem_nil }
  | limitTo limit =>
    refine (Edit.pushedFirst_limitTo q s limit).over h (fun x hx => ?_) hpushed
    exact { hx with limit := fun e he => hterms rfl e (Option.mem_toList.2 he) }
  | startAfter offset =>
    refine (Edit.pushedFirst_startAfter q s offset).over h (fun x hx => ?_) hpushed
    exact { hx with offset := fun e he => hterms rfl e (Option.mem_toList.2 he) }
  | distinctRows distinct => exact (Edit.pushedFirst_distinctRows q s distinct).over h (fun x hx => { hx with }) hpushed
  | pushDown => exact (Edit.pushedFirst_pushDown ⟨q, s⟩).over h (fun _ => id) fun _ => hpushed rfl
  | expandStar => exact h.expandStarTo none
  | replacePaging dialect named => cases hop

/-! ## Slots, sort keys and members -/

/-- A property that only the name, the slots, the sort keys and the members of a query have a part in. A
slot that is added for a column keeps it. -/
structure Slotwise (L : Query → Prop) : Prop where
  congr : ∀ {q r : Query}, L q → r.name = q.name → r.projection = q.projection → r.orderBy = q.orderBy →
    r.members = q.members → L r
  addSlot : ∀ {q : Query} {e : Expr}, e.unnamed.isColumn = true → q.Everywhere L → L (q.addSlot e).2

namespace Slotwise

variable {L : Query → Prop} (hL : Slotwise L) {q r : Query}
include hL

theorem withPart {c : Query} {t : Table} {i : Nat} (h : q.Everywhere L) (ht : q.tables[i]? = some t)
    (hc : c.Everywhere L) : { q with tables := q.tables.set i (t.withUnjoined (.nested c)) }.Everywhere L := by
  rw [everywhere_iff_over] at h ⊢
  exact ⟨hL.congr h.1 rfl rfl rfl rfl, h.2.withPart ht hc⟩

theorem grows (hg : q.Grows r) : q.Everywhere L → r.Everywhere L := by
  induction hg with
  | refl _ => exact id
  | trans _ _ ih ih' => exact ih' ∘ ih
  | slot q he =>
    intro h
    refine everywhere_iff_over.2 ⟨hL.addSlot he h, ?_⟩
    exact (everywhere_iff_over.1 h).2.project false (Expr.below_of_isColumn he)
  | memo q threshold he =>
    intro h
    rw [everywhere_iff_over] at h ⊢
    exact ⟨hL.congr h.1 rfl rfl rfl rfl, h.2.remember threshold he⟩
  | @table q c c' t i hi hc hg ih =>
    intro h
    have hchild : c.Everywhere L :=
      (everywhere_iff_over.1 h).2.tables t (List.mem_of_getElem? hi) c (Table.mem_children_of_query? hc)
    exact hL.withPart h hi (ih hchild)

theorem passesBy {op : Operation} (hop : op.passesBy = true) (s : Session) (h : L q) : L (op.run s q) := by
  cases op with
  | appendTable | restrict | withPredicate => exact hL.congr h rfl rfl rfl rfl
  | detachTable name =>
    show L (q.detachTable name).2
    unfold detachTable
    split
    · exact h
    · exact hL.congr h rfl rfl rfl rfl
  | chooseWildcard name =>
    show L (stateOf (chooseWildcard name q))
    rw [chooseWildcard_eq]
    split
    · exact hL.congr h rfl rfl rfl rfl
    · exact h
  | switchWildcard starred =>
    show L (stateOf (switchWildcard starred q))
    rw [switchWildcard_eq]
    split
    · exact h
    · exact hL.congr h rfl rfl rfl rfl
  | _ => cases hop

/-- After an operation the property holds everywhere, if it holds of the root and of what has been pushed down. -/
theorem run (h : q.Everywhere L) {op : Operation} (hop : op.pages = false) (s : Session)
    (hgiven : ∀ c ∈ op.given, c.Everywhere L) (hroot : L (op.run s q))
    (hpushed : op.pushesFirst q = true → ∀ t p c, q.pushedDown t = .ok p → p.tables = [.nested c] → L c) :
    (op.run s q).Everywhere L := by
  refine everywhere_iff_over.2 ⟨hroot, ?_⟩
  refine (everywhere_iff_over.1 h).2.run hop s hgiven (fun c c' hc hg => hL.grows hg hc) fun hfirst t p c hp ht hc => ?_
  exact everywhere_iff_over.2 ⟨hpushed hfirst t p c hp ht, hc⟩

end Slotwise

end Query

/-! ## Runs of allowed operations -/

/-- A query that operations compose that are allowed in their session, from what has been composed in the same way. -/
inductive Query.ComposedBy (allowed : Query → Operation → Session → Prop) : Query → Prop
  | fresh (name : Option String) : ComposedBy allowed { name }
  | part {q c : Query} : ComposedBy allowed q → c ∈ q.parts → ComposedBy allowed c
  | withPart {q c : Query} {t : Table} (i : Nat) : ComposedBy allowed q → ComposedBy allowed c →
      q.tables[i]? = some t → ComposedBy allowed { q with tables := q.tables.set i (t.withUnjoined (.nested c)) }
  | operation {q : Query} (op : Operation) (s : Session) : ComposedBy allowed q → allowed q op s →
      (∀ c ∈ op.given, ComposedBy allowed c) → ComposedBy allowed (op.run s q)

namespace Query

variable {allowed : Query → Operation → Session → Prop}

/-- What an allowed operation leaves that is given no queries. -/
theorem ComposedBy.apply {q : Query} (op : Operation) (h : q.ComposedBy allowed) (hop : allowed q op {})
    (hgiven : op.given = [] := by rfl) : (op.run {} q).ComposedBy allowed := by
  refine .operation op {} h hop ?_
  rw [hgiven]
  exact fun c hc => absurd hc List.not_mem_nil

theorem ComposedBy.composed {q : Query} (h : q.ComposedBy allowed) : q.Composed := by
  induction h with
  | fresh name => exact .fresh name
  | part _ hc ih => exact .part ih hc
  | withPart i _ _ ht ih ih' => exact .withPart i ih ih' ht
  | operation op s _ _ _ ih hgiven => exact .operation op s ih hgiven

/-- What every allowed operation keeps everywhere holds everywhere in a composed tree. -/
theorem Slotwise.composedBy {L : Query → Prop} (hL : Slotwise L) (hfresh : ∀ name, L { name })
    (hrun : ∀ (q : Query) (op : Operation) (s : Session), q.ComposedBy allowed → allowed q op s →
      (∀ c ∈ op.given, c.ComposedBy allowed) → q.Everywhere L → (∀ c ∈ op.given, c.Everywhere L) →
        (op.run s q).Everywhere L) {q : Query} (h : q.ComposedBy allowed) : q.Everywhere L := by
  induction h with
  | fresh name =>
    refine everywhere_iff_over.2 ⟨hfresh name, ?_⟩
    constructor <;> simp
  | part _ hc ih => exact ((everywhere_iff_parts _).1 ih).2 _ hc
  | withPart _ _ _ ht ih ih' => exact hL.withPart ih ht ih'
  | operation op s hq hallowed hcomposed ih hgiven => exact hrun _ op s hq hallowed hcomposed ih hgiven

end Query
end QueryTree
