/-
Properties of all queries of a tree. A property of single queries that every single change to a query
keeps holds of all queries of a tree after an operation if it held of all of them before, and of all
those in what the operation is given.
-/
import QueryTree.Proofs.Binding.Growth
import QueryTree.Proofs.Paging.Pass

namespace QueryTree

/-! ## Trees and operations -/

namespace Query

/-- The queries right below a query, those in members and in the memo included. -/
def parts (q : Query) : List Query :=
  q.children ++ q.members.flatMap (fun m => m.2.children) ++ q.memo.entries.flatMap Expr.children

/-- `x` is `q` or stands somewhere below it. -/
inductive Within (x : Query) : Query → Prop
  | root : Within x x
  | part {q c : Query} : c ∈ q.parts → Within x c → Within x q

end Query

/-- An operation on a query, with what it is given. -/
inductive Operation
  | appendTable (t : Table)
  | detachTable (name : String)
  | chooseWildcard (name : String)
  | switchWildcard (starred : Bool)
  | resolveColumn (settings : Settings) (column : String) (type : DataType) (source : Source)
  | resolveProperty (settings : Settings) (properties : PropertyMap) (property : String) (source : Source)
  | project (e : Expr) (explicit : Bool)
  | projectOnly (e : Expr)
  | projectNothing
  | setMember (member : String) (e : Expr)
  | restrict (e : Expr)
  | withPredicate (e : Option Expr)
  | orderAlso (key : OrderKey)
  | orderFirst (keys : List OrderKey)
  | unordered
  | limitTo (limit : Option Expr)
  | startAfter (offset : Option Expr)
  | distinctRows (distinct : Bool)
  | pushDown
  | expandStar
  | replacePaging (dialect : Dialect) (named : Nat)

namespace Operation

/-- The query that the operation leaves, also where it fails. -/
def run (s : Session) (q : Query) : Operation → Query
  | appendTable t => q.appendTable t
  | detachTable name => (q.detachTable name).2
  | chooseWildcard name => stateOf (Query.chooseWildcard name q)
  | switchWildcard starred => stateOf (Query.switchWildcard starred q)
  | resolveColumn settings column type source => stateOf (Query.resolveColumn settings column type source q)
  | resolveProperty settings properties property source =>
    stateOf (Query.resolveProperty settings properties property source q)
  | project e explicit => (q.project e explicit).2
  | projectOnly e => (stateOf (Edit.projectOnly e ⟨q, s⟩)).query
  | projectNothing => q.projectNothing
  | setMember member e => q.setMember member e
  | restrict e => q.restrict e
  | withPredicate e => q.withPredicate e
  | orderAlso key => (q.orderAlso key).2
  | orderFirst keys => q.orderFirst keys
  | unordered => q.unordered
  | limitTo limit => (stateOf (Edit.limitTo limit ⟨q, s⟩)).query
  | startAfter offset => (stateOf (Edit.startAfter offset ⟨q, s⟩)).query
  | distinctRows distinct => (stateOf (Edit.distinctRows distinct ⟨q, s⟩)).query
  | pushDown => (stateOf (Edit.pushDown ⟨q, s⟩)).query
  | expandStar => stateOf (Query.expandStar q)
  | replacePaging dialect named => (dialect.replacePaging named q s).query

/-- The expressions that the operation is given. -/
def terms : Operation → List Expr
  | project e _ | projectOnly e | setMember _ e | restrict e => [e]
  | withPredicate e | limitTo e | startAfter e => e.toList
  | orderAlso key => [key.expr]
  | orderFirst keys => keys.map (·.expr)
  | _ => []

/-- The queries in what the operation is given. -/
def given : Operation → List Query
  | appendTable t => t.children
  | op => op.terms.flatMap Expr.children

end Operation

/-! ## Properties of single queries -/

namespace Query

/-- Every query of the tree has the property. -/
def Everywhere (L : Query → Prop) (q : Query) : Prop := ∀ x : Query, x.Within q → L x

theorem everywhere_iff_parts {L : Query → Prop} (q : Query) :
    q.Everywhere L ↔ L q ∧ ∀ c ∈ q.parts, c.Everywhere L := by
  constructor
  · intro h
    exact ⟨h q .root, fun c hc x hx => h x (.part hc hx)⟩
  · rintro ⟨h, hparts⟩ x hx
    cases hx with
    | root => exact h
    | part hc hx => exact hparts _ hc x hx

/-- A property of a query that single changes to it keep. Its clauses, sort keys and members have no
part in it, nor has what is below it but for the names of tables and of slots. -/
structure Local (L : Query → Prop) : Prop where
  memo : ∀ {q}, L q → ∀ e ∈ q.memo.entries, e.isColumn = true
  fresh : ∀ name, L { name }
  congr : ∀ {q r : Query}, L q → r.name = q.name → r.memo = q.memo → r.wildcardChoice = q.wildcardChoice →
    r.tables.map Table.name = q.tables.map Table.name →
    r.projection.map (fun e => (e.outputName, e.isStar)) = q.projection.map (fun e => (e.outputName, e.isStar)) → L r
  projectNothing : ∀ {q : Query}, L q → L q.projectNothing
  project : ∀ e explicit {q}, L q → L (q.project e explicit).2
  remember : ∀ threshold {e q}, e.isColumn = true → L q → L { q with memo := (q.memo.remember threshold e).2 }
  appendTable : ∀ t {q}, L q → L (q.appendTable t)
  detachTable : ∀ name {q}, L q → L (q.detachTable name).2
  chooseWildcard : ∀ {name} {q : Query}, q.tables.any (·.name == some name) = true → L q →
    L { q with wildcardChoice := some name }
  pushedDown : ∀ {t q p c copies added}, Moved t q p c copies added → L q → L p ∧ L c

theorem below_terms_iff {P : Query → Prop} (q : Query) : (q.Below P ∧ ∀ m ∈ q.members, m.2.Below P) ↔
    (∀ t ∈ q.tables, t.Below P) ∧ ∀ e ∈ q.terms, e.Below P := by
  simp only [Below, children, terms, Table.Below, Expr.Below, List.forall_mem_append, List.forall_mem_flatMap,
    List.forall_mem_map, and_assoc]

theorem mem_terms {q : Query} {e : Expr} : e ∈ q.terms ↔ e ∈ q.projection ∨ q.predicate = some e ∨
    (∃ k ∈ q.orderBy, k.expr = e) ∨ q.limit = some e ∨ q.offset = some e ∨ ∃ m ∈ q.members, m.2 = e := by
  simp only [terms, exprs, List.mem_append, List.mem_map, Option.mem_toList, or_assoc]

section Local

variable {L : Query → Prop} (hL : Local L) {q r : Query}
include hL

/-- A memo of columns has no queries below it. -/
theorem everywhere_iff (q : Query) : q.Everywhere L ↔
    L q ∧ (∀ t ∈ q.tables, t.Below (Everywhere L)) ∧ ∀ e ∈ q.terms, e.Below (Everywhere L) := by
  rw [everywhere_iff_parts, ← below_terms_iff]
  refine and_congr_right fun h => ?_
  have hmemo : ∀ e ∈ q.memo.entries, ∀ c ∈ e.children, c.Everywhere L := fun e he =>
    Expr.below_of_isColumn (Expr.isColumn_unnamed (hL.memo h e he))
  simp only [parts, Below, Expr.Below, List.forall_mem_append, List.forall_mem_flatMap, iff_true_intro hmemo, and_true]

namespace Everywhere

theorem tables (h : q.Everywhere L) : ∀ t ∈ q.tables, t.Below (Everywhere L) := ((everywhere_iff hL q).1 h).2.1

theorem terms (h : q.Everywhere L) : ∀ e ∈ q.terms, e.Below (Everywhere L) := ((everywhere_iff hL q).1 h).2.2

/-- Tables are left alone, and all expressions are from before or have the property below them. -/
theorem congr (h : q.Everywhere L) (hr : L r) (ht : r.tables = q.tables)
    (he : ∀ e ∈ r.terms, e ∈ q.terms ∨ e.Below (Everywhere L)) : r.Everywhere L := by
  refine (everywhere_iff hL r).2 ⟨hr, ?_, fun e hr => ?_⟩
  · rw [ht]
    exact h.tables hL
  · rcases he e hr with hq | hbelow
    · exact h.terms hL e hq
    · exact hbelow

/-! ## Single changes -/

theorem project {e : Expr} (explicit : Bool) (he : e.Below (Everywhere L)) (h : q.Everywhere L) :
    (q.project e explicit).2.Everywhere L := by
  suffices hkept : (q.project e explicit).2.tables = q.tables ∧
      ∀ x ∈ (q.project e explicit).2.terms, x ∈ q.terms ∨ x.Below (Everywhere L) from
    h.congr hL (hL.project e explicit (h q .root)) hkept.1 hkept.2
  -- The new slot is `e` under a name, and sort keys are left alone or refer to the slot.
  refine project_keeps (K := fun r => r.tables = q.tables ∧ ∀ x ∈ r.terms, x ∈ q.terms ∨ x.Below (Everywhere L))
    explicit id ?_ ⟨rfl, fun _ => .inl⟩
  rintro r ⟨htables, hterms⟩ -
  obtain ⟨slot, keys, hun, heq, -, -, hsort⟩ := appendValue_spec e.stripCasts r
  have hslot : slot.Below (Everywhere L) := by rwa [Expr.below_congr hun, Expr.below_stripCasts]
  rw [heq]
  refine ⟨htables, fun x hx => ?_⟩
  simp only [mem_terms, List.mem_append, List.mem_singleton] at hx
  rcases hx with (hx | rfl) | hx | ⟨k, hk, rfl⟩ | hx
  · exact hterms x (mem_terms.2 (.inl hx))
  · exact .inr hslot
  · exact hterms x (mem_terms.2 (.inr (.inl hx)))
  · rcases hsort k hk with hk | hk
    · exact hterms _ (mem_terms.2 (.inr (.inr (.inl ⟨k, hk, rfl⟩))))
    · exact .inr (hk ▸ hslot)
  · exact hterms x (mem_terms.2 (.inr (.inr (.inr hx))))

theorem pushedDown {t : String} {p : Query} (h : q.Everywhere L) (hp : q.pushedDown t = .ok p) : p.Everywhere L := by
  obtain ⟨c, copies, added, hmoved⟩ := pushedDown_moved hp
  obtain ⟨hroot, hparts⟩ := (everywhere_iff hL q).1 h
  obtain ⟨hbelow, hmembers⟩ := (below_terms_iff q).2 hparts
  obtain ⟨hparent, hchild⟩ := hL.pushedDown hmoved hroot
  have hc : c.Everywhere L := by
    refine (everywhere_iff hL c).2 ⟨hchild, (below_terms_iff c).1 ⟨hmoved.below hbelow hmembers, ?_⟩⟩
    rw [hmoved.child]
    simp
  refine (everywhere_iff hL p).2 ⟨hparent, ?_, fun e he => ?_⟩
  · rw [hmoved.passes.tables]
    intro u hu
    rw [List.mem_singleton.1 hu]
    intro x hx
    rw [List.mem_singleton.1 hx]
    exact hc
  · rw [mem_terms] at he
    rw [hmoved.parent] at he
    simp only [List.not_mem_nil, reduceCtorEq, false_or] at he
    rcases he with ⟨k, hk, rfl⟩ | ⟨m, hm, rfl⟩
    · exact hmoved.below_keys k hk
    · exact hmoved.below_members m hm

/-- Of the wildcard nothing is said. -/
theorem starred (starred : Bool) (h : q.Everywhere L) : { q with starred }.Everywhere L :=
  h.congr hL (hL.congr (h q .root) rfl rfl rfl rfl rfl) rfl fun _ => .inl

theorem expandStarTo (count : Option Nat) (h : q.Everywhere L) :
    (stateOf (Query.expandStarTo count q)).Everywhere L :=
  expandStarTo_keeps (fun he hq => hq.project hL false he) (fun hq => hq.starred hL false) count
    (fun e he => Expr.below_of_isColumn (Expr.isColumn_unnamed (hL.memo (h q .root) e he))) h

theorem projectNothing (h : q.Everywhere L) : q.projectNothing.Everywhere L := by
  refine h.congr hL (hL.projectNothing (h q .root)) rfl fun x hx => .inl ?_
  rw [mem_terms] at hx ⊢
  exact hx.imp_left fun hx => absurd hx List.not_mem_nil

theorem appendTable {t : Table} (ht : t.Below (Everywhere L)) (h : q.Everywhere L) : (q.appendTable t).Everywhere L :=
  (everywhere_iff hL _).2 ⟨hL.appendTable t (h q .root),
    List.forall_mem_append.2 ⟨h.tables hL, by simpa using ht⟩, h.terms hL⟩

theorem detachTable (name : String) (h : q.Everywhere L) : (q.detachTable name).2.Everywhere L := by
  have hr := hL.detachTable name (h q .root)
  unfold Query.detachTable at hr ⊢
  generalize q.tables.findIdx? (·.name == some name) = i at hr ⊢
  cases i with
  | none => exact h
  | some i => exact (everywhere_iff hL _).2 ⟨hr, fun t ht => h.tables hL t (List.mem_of_mem_eraseIdx ht), h.terms hL⟩

theorem chooseWildcard (name : String) (h : q.Everywhere L) : (stateOf (Query.chooseWildcard name q)).Everywhere L := by
  rw [chooseWildcard_eq]
  split
  · rename_i hany
    exact h.congr hL (hL.chooseWildcard hany (h q .root)) rfl fun _ => .inl
  · exact h

theorem switchWildcard (starred : Bool) (h : q.Everywhere L) :
    (stateOf (Query.switchWildcard starred q)).Everywhere L := by
  rw [switchWildcard_eq]
  split
  · exact h
  · exact h.starred hL starred

/-- A nested query is put back changed, under the name that it had. -/
theorem withPart {c c' : Query} {t : Table} {i : Nat} (h : q.Everywhere L) (ht : q.tables[i]? = some t)
    (hc : t.query? = some c) (hc' : c'.Everywhere L) (hname : c'.name = c.name) :
    { q with tables := q.tables.set i (t.withUnjoined (.nested c')) }.Everywhere L := by
  refine (everywhere_iff hL _).2 ⟨hL.congr (h q .root) rfl rfl rfl ?_ rfl, fun u hu => ?_, h.terms hL⟩
  · obtain ⟨hlt, rfl⟩ := List.getElem?_eq_some_iff.1 ht
    have hlen : i < (q.tables.map Table.name).length := by rwa [List.length_map]
    have hentry : (q.tables.map Table.name)[i] = q.tables[i].name := List.getElem_map ..
    show (q.tables.set i _).map Table.name = q.tables.map Table.name
    rw [List.map_set, Table.name_withUnjoined hc hname, ← hentry, List.set_getElem_self]
  · rcases List.mem_or_eq_of_mem_set hu with hu | rfl
    · exact h.tables hL u hu
    · exact Table.below_withUnjoined hc' (h.tables hL t (List.mem_of_getElem? ht))

/-! ## Binding -/

theorem grows (hg : q.Grows r) : q.Everywhere L → r.Everywhere L := by
  induction hg with
  | refl _ => exact id
  | trans _ _ ih ih' => exact ih' ∘ ih
  | slot _ he => exact fun h => h.project hL false (Expr.below_of_isColumn he)
  | memo q threshold he => exact fun h => h.congr hL (hL.remember threshold he (h q .root)) rfl fun _ => .inl
  | table i hi hc hg ih =>
    intro h
    have hchild := h.tables hL _ (List.mem_of_getElem? hi) _ (Table.mem_children_of_query? hc)
    exact h.withPart hL hi hc (ih hchild) hg.name

end Everywhere

/-! ## Operations that push down -/

/-- The changes that operations consist of keep the property everywhere. -/
theorem everywhere_invariant : Invariant (Everywhere L) (Everywhere L) where
  below h := h.terms hL
  child {q c} h hc :=
    h.tables hL (.nested c) (by rw [hc]; exact List.mem_singleton_self _) c (List.mem_singleton_self _)
  withChild {q c c'} h hc hc' hname := by
    have hput := h.withPart hL (i := 0) (t := .nested c) (by rw [hc]; rfl) rfl hc' hname
    rw [hc] at hput
    exact hput
  pushedDown h hp := h.pushedDown hL hp
  expandStarTo count _ h := h.expandStarTo hL count
  project explicit _ he h := h.project hL explicit he
  change {q q'} h hn ht hm hw hp he := by
    refine h.congr hL ?_ ht he
    rcases hp with hp | hp
    · exact hL.congr (h q .root) hn hm hw (by rw [ht]) (by rw [hp])
    · exact hL.congr (hL.projectNothing (h q .root)) hn hm hw (by rw [ht]; rfl) (by rw [hp]; rfl)

/-! ## The paging pass -/

omit hL in
theorem step_name (p : PagingPass) (q : Query) : (PagingPass.step q p).1.name = q.name := by
  rcases PagingPass.step_query q p with heq | heq
  · rw [heq]
  · rw [heq]
    exact Edit.replacePaging_name p.columnName ⟨q, p.session⟩

theorem everywhere_step (p : PagingPass) (h : q.Everywhere L) : (PagingPass.step q p).1.Everywhere L := by
  rcases PagingPass.step_query q p with heq | heq
  · rw [heq]
    exact h
  · rw [heq]
    exact (Edit.meets_replacePaging (everywhere_invariant hL) p.columnName ⟨q, p.session⟩ h).1

/-- What a pass does to the queries below a query leaves the property alone. -/
theorem Local.passedBelow {ok : PagingPass → Prop} (hp : PassedBelow PagingPass.step ok q r) (h : L q) : L r := by
  have htables : r.tables.map Table.name = q.tables.map Table.name :=
    map_eq_of_forall₂ (fun _ _ ht => ht.name fun q p => step_name p q) hp.tables
  refine hL.congr h ?_ ?_ ?_ htables (map_eq_of_forall₂ (fun _ _ he => Prod.ext he.outputName he.isStar) hp.projection)
  all_goals rw [hp.same]

/-- A pass keeps the property everywhere, also one that fails. -/
theorem everywhere_mapQueriesM (q : Query) : q.Everywhere L →
    ∀ p : PagingPass, (q.mapQueriesM PagingPass.step p).1.Everywhere L := by
  induction q using Query.induct with
  | h q ih =>
    intro h p
    -- Whether the pass fails does not matter.
    obtain ⟨q', p', heq, hpassed⟩ : ∃ q' p', q.mapQueriesM PagingPass.step p = PagingPass.step q' p' ∧
        PassedBelow PagingPass.step (fun _ => True) q q' := mapQueriesM_passed (fun _ _ _ => trivial) trivial
    obtain ⟨hroot, hparts⟩ := (everywhere_iff hL q).1 h
    obtain ⟨hbelow, hmembers⟩ := (below_terms_iff q).2 hparts
    have hbelow' : q'.Below (Everywhere L) := by
      intro c' hc'
      obtain ⟨c, hc, s, rfl, -⟩ := forall₂_mem_left hpassed.children.flip hc'
      exact ih c hc (hbelow c hc) s
    have hmembers' : q'.members = q.members := by rw [hpassed.same]
    rw [heq]
    apply everywhere_step hL
    refine (everywhere_iff hL q').2 ⟨hL.passedBelow hpassed hroot, (below_terms_iff q').1 ⟨hbelow', ?_⟩⟩
    rw [hmembers']
    exact hmembers

theorem Everywhere.replacePaging (dialect : Dialect) (named : Nat) (s : Session) (h : q.Everywhere L) :
    (dialect.replacePaging named q s).query.Everywhere L := by
  unfold Dialect.replacePaging
  split
  · exact h
  · exact everywhere_mapQueriesM hL q h _

end Local
end Query

/-! ## All operations -/

theorem Assoc.mem_put {κ ν : Type} [BEq κ] {key : κ} {value : ν} {x : κ × ν} : ∀ {entries : List (κ × ν)},
    x ∈ put key value entries → x = (key, value) ∨ x ∈ entries
  | [], h => .inl (List.mem_singleton.1 h)
  | (k, v) :: rest, h => by
    rw [put] at h
    split at h
    · rcases List.mem_cons.1 h with h | h
      · exact .inl h
      · exact .inr (List.mem_cons_of_mem _ h)
    · rcases List.mem_cons.1 h with h | h
      · exact .inr (h ▸ List.mem_cons_self ..)
      · exact (mem_put h).imp_right (List.mem_cons_of_mem _)

namespace Query

theorem mem_addKey {key k : OrderKey} {keys : List OrderKey} (h : k ∈ (addKey key keys).2) : k = key ∨ k ∈ keys := by
  unfold addKey at h
  split at h
  · exact .inr h
  · rcases List.mem_append.1 h with h | h
    · exact .inr h
    · exact .inl (List.mem_singleton.1 h)

theorem mem_foldl_addKey {k : OrderKey} : ∀ {old keys : List OrderKey},
    k ∈ old.foldl (fun keys key => (addKey key keys).2) keys → k ∈ old ∨ k ∈ keys
  | [], _, h => .inr h
  | key :: old, keys, h => by
    rw [List.foldl_cons] at h
    rcases mem_foldl_addKey h with h | h
    · exact .inl (List.mem_cons_of_mem _ h)
    · rcases mem_addKey h with rfl | h
      · exact .inl (List.mem_cons_self ..)
      · exact .inr h

namespace Everywhere

variable {L : Query → Prop} (hL : Local L) {q : Query}
include hL

theorem setMember (member : String) {e : Expr} (he : e.Below (Everywhere L)) (h : q.Everywhere L) :
    (q.setMember member e).Everywhere L := by
  refine (everywhere_invariant hL).change h rfl rfl rfl rfl (.inl rfl) fun x hx => ?_
  rw [mem_terms] at hx ⊢
  rcases hx with hx | hx | hx | hx | hx | ⟨m, hm, rfl⟩
  · exact .inl (.inl hx)
  · exact .inl (.inr (.inl hx))
  · exact .inl (.inr (.inr (.inl hx)))
  · exact .inl (.inr (.inr (.inr (.inl hx))))
  · exact .inl (.inr (.inr (.inr (.inr (.inl hx)))))
  · rcases Assoc.mem_put hm with rfl | hm
    · exact .inr he
    · exact .inl (.inr (.inr (.inr (.inr (.inr ⟨m, hm, rfl⟩)))))

theorem withPredicate {e : Option Expr} (he : ∀ x ∈ e, x.Below (Everywhere L)) (h : q.Everywhere L) :
    (q.withPredicate e).Everywhere L := by
  refine (everywhere_invariant hL).change h rfl rfl rfl rfl (.inl rfl) fun x hx => ?_
  rw [mem_terms] at hx ⊢
  rcases hx with hx | hx | hx
  · exact .inl (.inl hx)
  · exact .inr (he x hx)
  · exact .inl (.inr (.inr hx))

/-- The keys are those of before and others with the property below them. -/
theorem ordered {keys : List OrderKey} (hk : ∀ k ∈ keys, k ∈ q.orderBy ∨ k.expr.Below (Everywhere L))
    (h : q.Everywhere L) : { q with orderBy := keys }.Everywhere L := by
  refine (everywhere_invariant hL).change h rfl rfl rfl rfl (.inl rfl) fun x hx => ?_
  rw [mem_terms] at hx ⊢
  rcases hx with hx | hx | ⟨k, hk', rfl⟩ | hx
  · exact .inl (.inl hx)
  · exact .inl (.inr (.inl hx))
  · exact (hk k hk').imp_left fun hk => .inr (.inr (.inl ⟨k, hk, rfl⟩))
  · exact .inl (.inr (.inr (.inr hx)))

/-- Every operation keeps the property everywhere, also where it fails. -/
theorem run (s : Session) (h : q.Everywhere L) (op : Operation) (hgiven : ∀ c ∈ op.given, c.Everywhere L) :
    (op.run s q).Everywhere L := by
  have inv := everywhere_invariant hL
  -- Of all operations only `appendTable` is given a table; the others are given terms.
  have hterms (he : op.given = op.terms.flatMap Expr.children) : ∀ e ∈ op.terms, e.Below (Everywhere L) :=
    fun e hmem c hc => hgiven c (he ▸ List.mem_flatMap.2 ⟨e, hmem, hc⟩)
  cases op with
  | appendTable t => exact h.appendTable hL hgiven
  | detachTable name => exact h.detachTable hL name
  | chooseWildcard name => exact h.chooseWildcard hL name
  | switchWildcard starred => exact h.switchWildcard hL starred
  | resolveColumn settings column type source => exact h.grows hL (grows_resolveColumn settings column type source q)
  | resolveProperty settings properties property source =>
    exact h.grows hL (grows_resolveProperty settings properties property source q)
  | project e explicit => exact h.project hL explicit (hterms rfl e (List.mem_singleton_self e))
  | projectOnly e => exact (Edit.meets_projectOnly inv (hterms rfl e (List.mem_singleton_self e)) ⟨q, s⟩ h).1
  | projectNothing => exact h.projectNothing hL
  | setMember member e => exact h.setMember hL member (hterms rfl e (List.mem_singleton_self e))
  | restrict e => exact Edit.restrict_keeps inv (hterms rfl e (List.mem_singleton_self e)) h
  | withPredicate e => exact h.withPredicate hL fun x hx => hterms rfl x (Option.mem_toList.2 hx)
  | orderAlso key =>
    refine h.ordered hL fun k hk => (mem_addKey hk).symm.imp_right ?_
    rintro rfl
    exact hterms rfl _ (List.mem_singleton_self _)
  | orderFirst keys =>
    exact h.ordered hL fun k hk => (mem_foldl_addKey hk).imp_right fun hk => hterms rfl _ (List.mem_map_of_mem hk)
  | unordered => exact h.ordered hL fun _ hk => absurd hk List.not_mem_nil
  | limitTo limit => exact (Edit.meets_limitTo inv (fun x hx => hterms rfl x (Option.mem_toList.2 hx)) ⟨q, s⟩ h).1
  | startAfter offset =>
    exact (Edit.meets_startAfter inv (fun x hx => hterms rfl x (Option.mem_toList.2 hx)) ⟨q, s⟩ h).1
  | distinctRows distinct => exact (Edit.meets_distinctRows inv distinct ⟨q, s⟩ h).1
  | pushDown => exact (Edit.meets_pushDown inv ⟨q, s⟩ h).1
  | expandStar => exact h.expandStarTo hL none
  | replacePaging dialect named => exact h.replacePaging hL dialect named s

end Everywhere

theorem everywhere_fresh {L : Query → Prop} (hL : Local L) (name : Option String) : Everywhere L { name } :=
  (everywhere_iff hL _).2 ⟨hL.fresh name, by simp, by simp [terms, exprs]⟩

end Query
end QueryTree
