/-
Single changes to bare queries. What a change makes of a bare query is the bare form of what it makes of the
query: which slot or key is found, which name is free and what can be lifted do not depend on indexes. For
binding the reference that scans its memos stands in, as binding itself may build an index again.
-/
import QueryTree.Paging
import QueryTree.Proofs.Failure
import QueryTree.Proofs.Restored.Bare

namespace QueryTree

theorem modify_map {α β : Type} {f : α → β} {g : α → α} {g' : β → β} (h : ∀ a, f (g a) = g' (f a)) :
    ∀ (as : List α) (i : Nat), (as.map f).modify i g' = (as.modify i g).map f
  | [], i => by cases i <;> rfl
  | a :: as, 0 => by simp [h]
  | a :: as, i + 1 => by simpa using modify_map h as i

/-- The same outcome with the answer and the state seen through functions. -/
def mapResult {ε σ τ α β : Type} (g : α → β) (f : σ → τ) : EStateM.Result ε σ α → EStateM.Result ε τ β
  | .ok a s => .ok (g a) (f s)
  | .error e s => .error e (f s)

theorem mapState_mapResult {ε σ τ υ α β : Type} {g : α → β} {f : σ → τ} {h : τ → υ} (r : EStateM.Result ε σ α) :
    mapState h (mapResult g f r) = mapResult g (fun s => h (f s)) r := by
  cases r <;> rfl

theorem mapResult_mapState {ε σ τ υ α β : Type} {g : α → β} {f : σ → τ} {h : τ → υ} (r : EStateM.Result ε σ α) :
    mapResult g h (mapState f r) = mapResult g (fun s => h (f s)) r := by
  cases r <;> rfl

namespace Query

variable (q : Query) (e : Expr)

/-! ## Slots -/

@[simp] theorem slotOf_bare : q.bare.slotOf e.bare = q.slotOf e := by
  simp [slotOf, bare_eq, List.findIdx?_map, Function.comp_def]

@[simp] theorem freeSlotName_bare (stem : String) : q.bare.freeSlotName stem = q.freeSlotName stem := by
  simp [freeSlotName, slotNames, bare_eq, List.filterMap_map]

theorem slotFor_bare : q.bare.slotFor e.bare = (q.slotFor e).bare := by
  unfold slotFor distinctlyNamed
  simp only [name_bare, Expr.isStar_bare, Expr.outputName_bare, freeSlotName_bare, Expr.withName_bare]
  repeat' split
  all_goals rfl

theorem appendSlot_bare : q.bare.appendSlot e.bare = (q.appendSlot e).bare := by
  rw [appendSlot, slotFor_bare]
  simp [bare_eq, appendSlot]

theorem keyToName_bare : q.bare.keyToName e.bare = q.keyToName e := by
  simp [keyToName, bare_eq, List.findIdx?_map, Function.comp_def]

theorem appendValue_bare : q.bare.appendValue e.bare = (q.appendValue e).bare := by
  have hnamed : (if (q.keyToName e).isSome && !e.isNamed then e.bare.withName (q.freeSlotName slotStem) else e.bare) =
      (if (q.keyToName e).isSome && !e.isNamed then e.withName (q.freeSlotName slotStem) else e).bare := by
    split
    · exact Expr.withName_bare ..
    · rfl
  unfold appendValue
  simp only [keyToName_bare, Expr.isNamed_bare, freeSlotName_bare, hnamed, slotFor_bare]
  rcases q.keyToName e with _ | i
  · simp [bare_eq]
  · have hkeys (x : Expr) : (q.orderBy.map OrderKey.bare).modify i ({ · with expr := x.bare }) =
        (q.orderBy.modify i ({ · with expr := x })).map OrderKey.bare :=
      modify_map (fun k => by cases k; rfl) _ _
    simp [bare_eq, hkeys]

theorem project_bare (explicit : Bool) :
    q.bare.project e.bare explicit = ((q.project e explicit).1, (q.project e explicit).2.bare) := by
  have hstarred : (if explicit then { q.bare with starred := false } else q.bare) =
      (if explicit then { q with starred := false } else q).bare := by
    split
    · simp [bare_eq]
    · rfl
  unfold project
  simp only [hstarred, Expr.stripCasts_bare, slotOf_bare]
  split
  · rfl
  · rw [appendValue_bare]
    simp [bare_eq]

theorem getD_bare (es : List Expr) (i : Nat) : (es.map Expr.bare).getD i e.bare = (es.getD i e).bare := by
  rw [List.getD_eq_getElem?_getD, List.getD_eq_getElem?_getD, List.getElem?_map]
  cases es[i]? <;> rfl

theorem addSlot_bare : q.bare.addSlot e.bare = ((q.addSlot e).1.bare, (q.addSlot e).2.bare) := by
  unfold addSlot
  simp only [project_bare, ← getD_bare]
  rw [bare_eq]

theorem foldl_project_bare (es : List Expr) : (es.map Expr.bare).foldl (fun q e => (q.project e false).2) q.bare =
    (es.foldl (fun q e => (q.project e false).2) q).bare := by
  rw [List.foldl_map]
  exact List.foldl_hom bare fun q e => congrArg Prod.snd (q.project_bare e false)

/-! ## Push-down -/

theorem showSlot_bare (wildcard : Option String) :
    showSlot wildcard e.bare q.bare = ((showSlot wildcard e q).1.bare, (showSlot wildcard e q).2.bare) := by
  unfold showSlot
  rw [slotOf_bare, starred_bare, projection_bare, Expr.unnamed_bare, Expr.owner_bare]
  split
  · rw [getD_bare]
  · split
    · rfl
    · exact addSlot_bare ..

/-- Over a bare query `y` does what `x` does over the query, with its answer seen through `g`. -/
def Mirrors {α β : Type} (g : α → β) (x : StateT Query (Except Error) α) (y : StateT Query (Except Error) β) : Prop :=
  ∀ c : Query, y.run c.bare = (x.run c).map fun r => (g r.1, r.2.bare)

namespace Mirrors

variable {α β γ δ : Type} {g : α → β} {h : γ → δ}

theorem pure (a : α) : Mirrors g (Pure.pure a) (Pure.pure (g a)) := fun _ => rfl

theorem bind {x : StateT Query (Except Error) α} {y : StateT Query (Except Error) β}
    {f : α → StateT Query (Except Error) γ} {f' : β → StateT Query (Except Error) δ} (hx : Mirrors g x y)
    (hf : ∀ a, Mirrors h (f a) (f' (g a))) : Mirrors h (x >>= f) (y >>= f') := by
  intro c
  rw [StateT.run_bind, StateT.run_bind, hx c]
  rcases x.run c with err | ⟨a, c'⟩
  · rfl
  · exact hf a c'

theorem mapM {f : α → StateT Query (Except Error) γ} {f' : β → StateT Query (Except Error) δ}
    (hf : ∀ a, Mirrors h (f a) (f' (g a))) : ∀ as : List α, Mirrors (List.map h) (as.mapM f) ((as.map g).mapM f')
  | [] => .pure []
  | a :: as => by
    rw [List.map_cons, List.mapM_cons, List.mapM_cons]
    exact (hf a).bind fun b => (mapM hf as).bind fun bs => .pure (b :: bs)

end Mirrors

/-- Expressions at some place in the elements of a list are lifted one after the other. -/
theorem mapM_liftThrough_bare {α : Type} {g : α → α} (t : String) (wildcard : Option String) (get : α → Expr)
    (put : α → Expr → α) (hget : ∀ a, get (g a) = (get a).bare) (hput : ∀ a e, put (g a) (Expr.bare e) = g (put a e))
    (as : List α) : Mirrors (List.map g) (as.mapM fun a => return put a (← liftThrough t wildcard (get a)))
      ((as.map g).mapM fun a => return put a (← liftThrough t wildcard (get a))) := by
  have hlift (e : Expr) : Mirrors Expr.bare (liftThrough t wildcard e) (liftThrough t wildcard e.bare) := by
    intro c
    rw [run_liftThrough, run_liftThrough, showSlot_bare, Expr.lift_bare]
    cases (showSlot wildcard e c).1.lift t <;> rfl
  refine .mapM (fun a => ?_) as
  rw [hget]
  refine (hlift (get a)).bind fun e => ?_
  rw [hput]
  exact .pure (put a e)

theorem firstChild_bare (name : String) : q.bare.firstChild name = (q.firstChild name).bare := by
  have hfold (child : Query) : (q.projection.map Expr.bare).foldl (fun child e => appendSlot e child) child.bare =
      (q.projection.foldl (fun child e => appendSlot e child) child).bare := by
    rw [List.foldl_map]
    exact List.foldl_hom bare fun child e => child.appendSlot_bare e
  have hfold := hfold { name := some name }
  have hempty : bare { name := some name } = { name := some name } := by simp [bare_eq]
  rw [hempty] at hfold
  unfold firstChild
  rw [bare_eq q]
  simp only [hfold]
  simp [bare_eq]

theorem pushedDown_bare (t : String) : q.bare.pushedDown t = (q.pushedDown t).map bare := by
  have hkeys := mapM_liftThrough_bare t q.wildcardTable OrderKey.expr (fun key e => { key with expr := e })
    OrderKey.bare_expr (fun key _ => by cases key; rfl) q.orderBy
  have hmembers := mapM_liftThrough_bare (g := fun m : String × Expr => (m.1, m.2.bare)) t q.wildcardTable Prod.snd
    (fun m e => (m.1, e)) (fun _ => rfl) (fun _ _ => rfl) q.members
  -- Keys are lifted first, and members through the slots that this has left.
  have hlifting : Mirrors (Prod.map (List.map OrderKey.bare) (List.map fun m => (m.1, m.2.bare)))
      (do
        let keys ← q.orderBy.mapM fun key => return { key with expr := ← liftThrough t q.wildcardTable key.expr }
        return (keys, ← q.members.mapM fun m => return (m.1, ← liftThrough t q.wildcardTable m.2)))
      (do
        let keys ← q.bare.orderBy.mapM fun key => return { key with expr := ← liftThrough t q.wildcardTable key.expr }
        return (keys, ← q.bare.members.mapM fun m => return (m.1, ← liftThrough t q.wildcardTable m.2))) := by
    rw [orderBy_bare, members_bare]
    exact hkeys.bind fun keys => hmembers.bind fun members => .pure (keys, members)
  have hlifted := hlifting (q.firstChild t)
  unfold pushedDown
  rw [wildcardTable_bare, firstChild_bare]
  rw [bare_eq q] at hlifted ⊢
  simp only at hlifted ⊢
  refine (congrArg (· >>= _) hlifted).trans ?_
  generalize StateT.run _ _ = r
  rcases r with err | ⟨⟨keys, members⟩, child⟩
  · rfl
  · have hpaged :
        ((q.limit.map Expr.bare).isNone && (q.offset.map Expr.bare).isNone) = (q.limit.isNone && q.offset.isNone) := by
      simp
    refine congrArg Except.ok ?_
    simp only [hpaged]
    rw [bare_eq]
    simp only [List.map_cons, List.map_nil, Table.bare, bare_eq, Prod.map_apply]
    cases q.limit.isNone && q.offset.isNone <;> simp

/-! ## Wildcards -/

theorem mapM_lift_bare (name : String) (es : List Expr) :
    (es.map Expr.bare).mapM (Expr.lift name) = (es.mapM (Expr.lift name)).map (List.map Expr.bare) := by
  induction es with
  | nil => rfl
  | cons e es ih =>
    rw [List.map_cons, List.mapM_cons, List.mapM_cons, Expr.lift_bare, ih]
    rcases e.lift name with err | lifted
    · rfl
    · cases es.mapM (Expr.lift name) <;> rfl

theorem outputs_bare (count : Option Nat) : q.bare.outputs count = (q.outputs count).map Expr.bare := by
  unfold outputs
  rw [bare_eq]
  rcases count with _ | n
  · cases q.starred <;> simp
  · cases q.starred <;> simp [List.map_take]

theorem expandStarTo_bare (count : Option Nat) :
    q.bare.expandStarTo count = mapResult id bare (q.expandStarTo count) := by
  unfold expandStarTo
  rw [starred_bare, tables_bare, memo_bare]
  rcases q.starred with _ | _
  · rfl
  rcases q.tables with _ | ⟨t, _ | ⟨u, ts⟩⟩
  · rfl
  · cases t with
    | nested child =>
      simp only [List.map_cons, List.map_nil, Table.bare, name_bare, outputs_bare]
      rcases child.name with _ | name
      · rfl
      · simp only [mapM_lift_bare]
        rcases (child.outputs count).mapM (Expr.lift name) with err | lifted
        · rfl
        · simp only [Except.map, ← List.map_append, foldl_project_bare]
          simp [mapResult, bare_eq]
    | base | join => rfl
  · cases t <;> rfl

theorem chooseWildcard_bare (name : String) :
    q.bare.chooseWildcard name = mapResult id bare (q.chooseWildcard name) := by
  rw [chooseWildcard_eq, chooseWildcard_eq, bare_eq q]
  simp only [List.any_map, Function.comp_def, Table.name_bare]
  split
  · simp [mapResult, bare_eq]
  · simp [mapResult, bare_eq]

theorem switchWildcard_bare (starred : Bool) :
    q.bare.switchWildcard starred = mapResult id bare (q.switchWildcard starred) := by
  rw [switchWildcard_eq, switchWildcard_eq, wildcardTable_bare]
  split
  · simp [mapResult, bare_eq]
  · simp [mapResult, bare_eq]

/-! ## Clauses and tables -/

theorem addKey_bare (key : OrderKey) (keys : List OrderKey) :
    addKey key.bare (keys.map OrderKey.bare) = ((addKey key keys).1.bare, (addKey key keys).2.map OrderKey.bare) := by
  unfold addKey
  rw [List.find?_map]
  simp only [Function.comp_def, OrderKey.bare_expr, OrderKey.bare_direction, Expr.equiv_bare]
  cases keys.find? fun k => k.direction == key.direction && k.expr.equiv key.expr <;> simp

theorem orderAlso_bare (key : OrderKey) :
    q.bare.orderAlso key.bare = ((q.orderAlso key).1.bare, (q.orderAlso key).2.bare) := by
  unfold orderAlso
  simp [bare_eq, addKey_bare]

theorem orderFirst_bare (keys : List OrderKey) :
    q.bare.orderFirst (keys.map OrderKey.bare) = (q.orderFirst keys).bare := by
  have hfold : (q.orderBy.map OrderKey.bare).foldl (fun keys key => (addKey key keys).2) (keys.map OrderKey.bare) =
      (q.orderBy.foldl (fun keys key => (addKey key keys).2) keys).map OrderKey.bare := by
    rw [List.foldl_map]
    exact List.foldl_hom (List.map OrderKey.bare) fun keys key => congrArg Prod.snd (addKey_bare key keys)
  unfold orderFirst
  simp [bare_eq, hfold]

theorem restrict_bare : q.bare.restrict e.bare = (q.restrict e).bare := by
  have hconjoin : Expr.conjoin (q.predicate.map Expr.bare) e.bare = (Expr.conjoin q.predicate e).bare := by
    cases q.predicate <;> simp [Expr.conjoin, Expr.bare]
  unfold restrict
  simp [bare_eq, hconjoin]

theorem setMember_bare (member : String) : q.bare.setMember member e.bare = (q.setMember member e).bare := by
  have hput : ∀ members : List (String × Expr),
      Assoc.put member e.bare (members.map fun m => (m.1, m.2.bare)) =
        (Assoc.put member e members).map fun m => (m.1, m.2.bare) := by
    intro members
    induction members with
    | nil => rfl
    | cons m members ih =>
      rw [List.map_cons, Assoc.put, Assoc.put]
      split
      · rfl
      · rw [ih, List.map_cons]
  unfold setMember
  simp [bare_eq, hput]

theorem appendTable_bare (t : Table) : q.bare.appendTable t.bare = (q.appendTable t).bare := by
  simp [appendTable, bare_eq]

theorem detachTable_bare (name : String) :
    q.bare.detachTable name = ((q.detachTable name).1.map Table.bare, (q.detachTable name).2.bare) := by
  unfold detachTable
  rw [bare_eq]
  simp only [List.findIdx?_map, Function.comp_def, Table.name_bare]
  split
  · simp [bare_eq]
  · simp [bare_eq, List.eraseIdx_map]

end Query

/-! ## Binding -/

mutual

theorem Table.serves_bare (s : Source) : ∀ t : Table, t.bare.serves s = t.serves s
  | .base .. => rfl
  | .join _ target _ => by rw [Table.bare, Table.serves, Table.serves, Table.serves_bare s target]
  | .nested q => by rw [Table.bare, Table.serves, Table.serves, Query.serves_bare s q]

theorem Query.serves_bare (s : Source) : ∀ q : Query, q.bare.serves s = q.serves s
  | ⟨tables, _, _, _, _, _, _, _, _, _, ⟨_, _⟩, _⟩ => by
    rw [Query.bare, Query.serves, Query.serves, anyServes_bare s tables]

theorem anyServes_bare (s : Source) : ∀ ts : List Table, anyServes s (tablesBare ts) = anyServes s ts
  | [] => rfl
  | t :: ts => by rw [tablesBare, anyServes, anyServes, Table.serves_bare s t, anyServes_bare s ts]

end

namespace Query

variable (q : Query) (e : Expr)

theorem scan_bare (entries : List Expr) :
    StarMemo.scan e.bare (entries.map Expr.bare) =
      ((StarMemo.scan e entries).1.bare, (StarMemo.scan e entries).2.map Expr.bare) := by
  unfold StarMemo.scan
  rw [List.find?_map]
  simp only [Function.comp_def, Expr.equiv_bare]
  cases entries.find? (·.equiv e) <;> simp

theorem standInByScan_bare :
    q.bare.standInByScan e.bare = ((q.standInByScan e).1.bare, (q.standInByScan e).2.bare) := by
  unfold standInByScan
  rw [starred_bare, memo_bare, projection_bare, List.find?_map]
  split
  · simp [scan_bare, bare_eq]
  · simp only [Function.comp_def, Expr.equiv_bare]
    cases q.projection.find? (·.equiv e) <;> rfl

theorem expose_bare (name : String) : q.bare.expose name e.bare = mapResult Expr.bare bare (q.expose name e) := by
  have hcovers : q.bare.wildcardCovers e.bare = q.wildcardCovers e := by
    rw [wildcardCovers, wildcardCovers, Expr.unnamed_bare, Expr.owner_bare, wildcardTable_bare]
  unfold expose
  rw [hcovers, starred_bare, addSlot_bare]
  by_cases h : (q.starred && q.wildcardCovers e) = true
  · simp only [if_pos h, Expr.lift_bare]
    cases e.lift name <;> rfl
  · simp only [if_neg h, Expr.lift_bare]
    cases (q.addSlot e).1.lift name <;> rfl

end Query

section Bind

variable (column : String) (type : DataType) (source : Source)

theorem Query.bindByScan_bare_of_tables {q : Query}
    (ht : bindFirstByScan column type source (q.tables.map Table.bare) =
      mapResult Expr.bare (List.map Table.bare) (bindFirstByScan column type source q.tables)) :
    q.bare.bindByScan column type source = mapResult Expr.bare Query.bare (q.bindByScan column type source) := by
  rw [bindByScan_eq, bindByScan_eq, tables_bare, ht]
  rcases bindFirstByScan column type source q.tables with ⟨bound, tables⟩ | ⟨err, tables⟩
  · have hstand := standInByScan_bare { q with tables } bound
    have hq : { q.bare with tables := tables.map Table.bare } = Query.bare { q with tables } := by simp [bare_eq]
    simp only [mapResult, hq, hstand]
  · simp [mapResult, bare_eq]

mutual

theorem Table.bindByScan_bare : ∀ t : Table,
    t.bare.bindByScan column type source = mapResult Expr.bare Table.bare (t.bindByScan column type source)
  | .base .. => rfl
  | .join kind target condition => by
    rw [Table.bare, Table.bindByScan, Table.bindByScan, Table.bindByScan_bare target, mapState_mapResult,
      mapResult_mapState]
    rfl
  | .nested q => by
    rw [Table.bare, Table.bindByScan, Table.bindByScan, Query.name_bare]
    rcases q.name with _ | name
    · rfl
    · simp only [Query.bindByScan_bare q, mapResult_mapState]
      rcases q.bindByScan column type source with ⟨e, q'⟩ | ⟨err, q'⟩
      · simp only [mapResult, Query.expose_bare]
        cases q'.expose name e <;> rfl
      · rfl

theorem Query.bindByScan_bare : ∀ q : Query,
    q.bare.bindByScan column type source = mapResult Expr.bare Query.bare (q.bindByScan column type source)
  | ⟨tables, _, _, _, _, _, _, _, _, _, _, _⟩ =>
    Query.bindByScan_bare_of_tables column type source (bindFirstByScan_bare tables)

theorem bindFirstByScan_bare : ∀ ts : List Table, bindFirstByScan column type source (ts.map Table.bare) =
    mapResult Expr.bare (List.map Table.bare) (bindFirstByScan column type source ts)
  | [] => rfl
  | t :: ts => by
    rw [List.map_cons, bindFirstByScan, bindFirstByScan, Table.serves_bare]
    split
    · rw [Table.bindByScan_bare t, mapState_mapResult, mapResult_mapState]
      rfl
    · rw [bindFirstByScan_bare ts, mapState_mapResult, mapResult_mapState]
      rfl

end

end Bind

theorem Query.resolveByScan_bare (column : String) (type : DataType) (source : Source) (q : Query) :
    resolveByScan column type source q.bare = mapResult Expr.bare bare (resolveByScan column type source q) := by
  unfold resolveByScan
  split
  · rfl
  · exact bindByScan_bare column type source q

/-- Binding in a query with consistent memos, up to indexes, is binding in the bare query by scanning. -/
theorem Query.resolveColumn_bare (settings : Settings) (column : String) (type : DataType) (source : Source) {q : Query}
    (h : q.Consistent) : mapResult Expr.bare bare (resolveColumn settings column type source q) =
      resolveByScan column type source q.bare := by
  have hscan := congrArg (mapResult Expr.bare bare) (resolveColumn_unindexed settings column type source h)
  rw [← resolveByScan_bare, bare_unindexed, mapResult_mapState] at hscan
  simp only [bare_unindexed] at hscan
  exact hscan.symm

end QueryTree
