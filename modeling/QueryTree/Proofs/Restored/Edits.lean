/-
Operations on bare drafts. All but binding do to a bare draft what they do to the draft, with the same
answers up to indexes; the paging pass too.
-/
import QueryTree.Proofs.Restored.Changes

namespace QueryTree

/-- The draft with a bare query. -/
def Draft.bare (d : Draft) : Draft := { d with query := d.query.bare }

namespace Edit

variable {α β γ δ : Type} {g : α → β} {h : γ → δ}

/-- Over a bare draft `y` does what `x` does over the draft, with its answer seen through `g`. -/
def Mirrors (g : α → β) (x : Edit α) (y : Edit β) : Prop := ∀ d : Draft, y d.bare = mapResult g Draft.bare (x d)

theorem bind_bare {x : Edit α} {y : Edit β} {f : α → Edit γ} {f' : β → Edit δ} {d : Draft}
    (hx : y d.bare = mapResult g Draft.bare (x d)) (hf : ∀ a, Mirrors h (f a) (f' (g a))) :
    (y >>= f') d.bare = mapResult h Draft.bare ((x >>= f) d) := by
  show EStateM.bind y f' d.bare = mapResult h Draft.bare (EStateM.bind x f d)
  unfold EStateM.bind
  rw [hx]
  rcases x d with ⟨a, d'⟩ | ⟨e, d'⟩
  · exact hf a d'
  · rfl

theorem onQuery_bare {act : EStateM Error Query α} {act' : EStateM Error Query β} {d : Draft}
    (hact : act' d.query.bare = mapResult g Query.bare (act d.query)) :
    onQuery act' d.bare = mapResult g Draft.bare (onQuery act d) := by
  unfold onQuery
  rw [show act' d.bare.query = act' d.query.bare from rfl, hact]
  cases act d.query <;> rfl

theorem onNested_bare {x : Edit α} {y : Edit β} {d : Draft} (hx : ∀ child, d.query.tables = [.nested child] →
    y (Draft.bare { d with query := child }) = mapResult g Draft.bare (x { d with query := child })) :
    onNested y d.bare = mapResult g Draft.bare (onNested x d) := by
  have htables : d.bare.query.tables = d.query.tables.map Table.bare := d.query.tables_bare
  unfold onNested
  rw [htables]
  rcases ht : d.query.tables with _ | ⟨t, _ | ⟨u, ts⟩⟩
  · rfl
  · cases t with
    | nested child =>
      have haround (q : Query) : ({ d.query.bare with tables := [.nested q.bare] } : Query) =
          Query.bare { d.query with tables := [.nested q] } := by simp [Query.bare_eq, Table.bare]
      simp only [List.map_cons, List.map_nil, Table.bare]
      rw [show ({ d.bare with query := child.bare } : Draft) = Draft.bare { d with query := child } from rfl,
        hx child ht]
      rcases x { d with query := child } with ⟨a, inner⟩ | ⟨e, inner⟩
      · exact congrArg (fun query => EStateM.Result.ok (g a) { inner with query }) (haround inner.query)
      · exact congrArg (fun query => EStateM.Result.error e { inner with query }) (haround inner.query)
    | base | join => rfl
  · cases t <;> simp [mapResult]

namespace Mirrors

theorem pure {a : α} {b : β} (hb : b = g a) : Mirrors g (Pure.pure a) (Pure.pure b) := fun _ => by
  rw [hb]
  rfl

theorem throw (e : Error) : Mirrors g (MonadExcept.throw e) (MonadExcept.throw e) := fun _ => rfl

theorem bind {x : Edit α} {y : Edit β} {f : α → Edit γ} {f' : β → Edit δ} (hx : Mirrors g x y)
    (hf : ∀ a, Mirrors h (f a) (f' (g a))) : Mirrors h (x >>= f) (y >>= f') :=
  fun d => bind_bare (hx d) hf

theorem ite {p p' : Prop} [Decidable p] [Decidable p'] {x x' : Edit α} {y y' : Edit β} (hp : p' ↔ p)
    (hx : Mirrors g x y) (hx' : Mirrors g x' y') : Mirrors g (if p then x else x') (if p' then y else y') := by
  by_cases h : p
  · rw [if_pos h, if_pos (hp.2 h)]
    exact hx
  · rw [if_neg h, if_neg (mt hp.1 h)]
    exact hx'

/-- A step that is done only under a condition, ahead of the rest. -/
theorem whenThen {p p' : Prop} [Decidable p] [Decidable p'] {x : Edit Unit} {rest : Unit → Edit α}
    {rest' : Unit → Edit β} (hp : p' ↔ p) (hx : Mirrors id x x) (hrest : Mirrors g (rest ()) (rest' ())) :
    Mirrors g (if p then x >>= rest else rest ()) (if p' then x >>= rest' else rest' ()) :=
  ite hp (bind hx fun _ => hrest) hrest

theorem query : Mirrors Query.bare Edit.query Edit.query := fun _ => rfl

theorem modifyQuery {f f' : Query → Query} (hf : ∀ q, f' q.bare = (f q).bare) :
    Mirrors id (Edit.modifyQuery f) (Edit.modifyQuery f') := by
  intro d
  show EStateM.Result.ok () { d with query := f' d.query.bare } = .ok () { d with query := (f d.query).bare }
  rw [hf]

theorem modifyGet {f : Draft → α × Draft} {f' : Draft → β × Draft} (hf : ∀ d, f' d.bare = (g (f d).1, (f d).2.bare)) :
    Mirrors g (MonadStateOf.modifyGet f) (MonadStateOf.modifyGet f') := by
  intro d
  show EStateM.Result.ok (f' d.bare).1 (f' d.bare).2 = .ok (g (f d).1) (f d).2.bare
  rw [hf]

theorem onQuery {act : EStateM Error Query α} {act' : EStateM Error Query β}
    (hact : ∀ q : Query, act' q.bare = mapResult g Query.bare (act q)) :
    Mirrors g (Edit.onQuery act) (Edit.onQuery act') :=
  fun d => onQuery_bare (hact d.query)

theorem onSession {act : EStateM Error Session α} : Mirrors id (Edit.onSession act) (Edit.onSession act) := by
  intro d
  unfold Edit.onSession
  rw [show d.bare.session = d.session from rfl]
  cases act d.session <;> rfl

theorem onNested {x : Edit α} {y : Edit β} (hx : Mirrors g x y) : Mirrors g (Edit.onNested x) (Edit.onNested y) :=
  fun _ => onNested_bare fun _ _ => hx _

end Mirrors

/-! ## Operations that push down -/

theorem mirrors_pushDown : Mirrors id pushDown pushDown := by
  refine .bind .onSession fun t => .bind .query fun q => ?_
  rw [id, Query.pushedDown_bare]
  rcases q.pushedDown t with e | p
  · exact .throw e
  · exact .modifyQuery fun _ => rfl

theorem mirrors_limitTo (limit : Option Expr) : Mirrors id (limitTo limit) (limitTo (limit.map Expr.bare)) := by
  refine .bind .query fun q => .whenThen (by simp) mirrors_pushDown (.modifyQuery fun q => ?_)
  simp [Query.bare_eq]

theorem mirrors_startAfter (offset : Option Expr) :
    Mirrors id (startAfter offset) (startAfter (offset.map Expr.bare)) := by
  refine .bind .query fun q => .whenThen (by simp) mirrors_pushDown (.modifyQuery fun q => ?_)
  simp [Query.bare_eq]

theorem mirrors_distinctRows (distinct : Bool) : Mirrors id (distinctRows distinct) (distinctRows distinct) := by
  refine .bind .query fun q => .whenThen (by simp) mirrors_pushDown (.modifyQuery fun q => ?_)
  simp [Query.bare_eq]

theorem projectNothing_bare (q : Query) : q.bare.projectNothing = q.projectNothing.bare := by
  simp [Query.projectNothing, Query.bare_eq]

theorem unordered_bare (q : Query) : q.bare.unordered = q.unordered.bare := by
  simp [Query.unordered, Query.bare_eq]

theorem mirrors_project (e : Expr) (explicit : Bool) :
    Mirrors id (modifyGet fun d : Draft => let (i, query) := d.query.project e explicit; (i, { d with query }))
      (modifyGet fun d : Draft => let (i, query) := d.query.project e.bare explicit; (i, { d with query })) := by
  refine .modifyGet fun d => ?_
  show ((d.query.bare.project e.bare explicit).1, { d with query := (d.query.bare.project e.bare explicit).2 }) = _
  rw [Query.project_bare]
  rfl

theorem mirrors_projectOnly (e : Expr) : Mirrors id (projectOnly e) (projectOnly e.bare) := by
  refine .bind .query fun q =>
    .whenThen (by simp) mirrors_pushDown (.bind (.modifyQuery projectNothing_bare) fun _ => ?_)
  exact mirrors_project e true

/-! ## The paging pass -/

theorem mirrors_expandStarTo (count : Option Nat) :
    Mirrors id (onQuery (Query.expandStarTo count)) (onQuery (Query.expandStarTo count)) :=
  .onQuery fun q => q.expandStarTo_bare count

theorem mirrors_sinkDistinct : Mirrors id sinkDistinct sinkDistinct := by
  refine .bind .query fun q => .bind (mirrors_startAfter none) fun _ => .bind (mirrors_limitTo none) fun _ =>
    .bind mirrors_pushDown fun _ => .bind (mirrors_expandStarTo none) fun _ => ?_
  rw [Query.offset_bare, Query.limit_bare]
  exact .bind (mirrors_startAfter q.offset) fun _ => mirrors_limitTo q.limit

theorem lastRow_bare (offset limit : Expr) : offset.bare.lastRow limit.bare = (offset.lastRow limit).bare := by
  unfold Expr.lastRow
  rw [Expr.integer?_bare, Expr.integer?_bare, Expr.type_bare]
  split
  · simp only
    split <;> rfl
  · rfl

theorem pagingBounds_bare (e : Expr) (offset limit : Option Expr) :
    e.bare.pagingBounds (offset.map Expr.bare) (limit.map Expr.bare) = (e.pagingBounds offset limit).map Expr.bare := by
  cases offset <;> cases limit <;> simp [Expr.pagingBounds, Expr.bare, lastRow_bare]

theorem conjunction_bare (es : List Expr) :
    Expr.conjunction (es.map Expr.bare) = (Expr.conjunction es).map Expr.bare := by
  have hconjoin (joined : Option Expr) (e : Expr) :
      some (Expr.conjoin (joined.map Expr.bare) e.bare) = (some (Expr.conjoin joined e)).map Expr.bare := by
    cases joined <;> rfl
  unfold Expr.conjunction
  rw [List.foldl_map]
  show es.foldl _ (Option.map Expr.bare none) = _
  exact List.foldl_hom (Option.map Expr.bare) hconjoin

theorem numberingKeys_bare (keys : List OrderKey) :
    numberingKeys (keys.map OrderKey.bare) = (numberingKeys keys).map OrderKey.bare := by
  cases keys with
  | nil => rfl
  | cons k keys => simp [numberingKeys, OrderKey.bare, Function.comp_def]

theorem mirrors_numberRows (column : String) :
    Mirrors (List.map Expr.bare) (numberRows column) (numberRows column) := by
  refine .bind .query fun q => .whenThen (by simp) mirrors_sinkDistinct (.bind .query fun q => ?_)
  rw [Query.name_bare]
  rcases q.name with _ | name
  · exact .throw _
  refine .bind (.modifyQuery unordered_bare) fun _ => .bind (g := Expr.bare) (.modifyGet fun d => ?_) fun slot => ?_
  · have hnumber : Expr.withName column (.rowNumber (numberingKeys q.bare.orderBy)) =
        (Expr.withName column (.rowNumber (numberingKeys q.orderBy))).bare := by
      rw [Query.orderBy_bare, numberingKeys_bare, ← Expr.withName_bare, Expr.bare, keysBare_eq_map]
    show ((d.query.bare.addSlot (Expr.withName column (.rowNumber (numberingKeys q.bare.orderBy)))).1,
      { d with
        query := (d.query.bare.addSlot (Expr.withName column (.rowNumber (numberingKeys q.bare.orderBy)))).2 }) = _
    rw [hnumber, Query.addSlot_bare]
    rfl
  · rw [Expr.lift_bare]
    rcases slot.lift name with e | rowNumber
    · exact .throw e
    refine .bind .query fun q => .bind (mirrors_startAfter none) fun _ => .bind (mirrors_limitTo none) fun _ => .pure ?_
    rw [Query.offset_bare, Query.limit_bare, pagingBounds_bare]

theorem mirrors_replacePaging (column : String) : Mirrors id (replacePaging column) (replacePaging column) := by
  have hunordered : Mirrors id (do if (← query).name.isSome then modifyQuery Query.unordered)
      (do if (← query).name.isSome then modifyQuery Query.unordered) :=
    .bind .query fun q => .ite (by simp) (.modifyQuery unordered_bare) (.pure rfl)
  refine .bind .query fun q => .bind mirrors_pushDown fun _ =>
    .bind (g := List.map Expr.bare) (.onNested (.bind .query fun q => .pure (by simp))) fun memo => ?_
  rw [Query.projection_bare, List.length_map]
  refine .whenThen (by simp) (mirrors_expandStarTo _) (.bind (.onNested (mirrors_numberRows column)) fun bounds => ?_)
  rw [conjunction_bare]
  rcases Expr.conjunction bounds with _ | condition
  · exact hunordered
  · exact .bind (.modifyQuery fun q => q.restrict_bare condition) fun _ => hunordered

end Edit

/-! ## The paging pass -/

section Pass

variable {m : Type → Type} [Monad m] [LawfulMonad m] {f : Query → m Query}

mutual

theorem Expr.mapQueriesM_bare (hf : ∀ q, f q.bare = Query.bare <$> f q) : ∀ e : Expr,
    e.bare.mapQueriesM f = Expr.bare <$> e.mapQueriesM f
  | .named _ inner => by
    rw [Expr.bare, Expr.mapQueriesM, Expr.mapQueriesM, Expr.mapQueriesM_bare hf inner]
    simp [Expr.bare]
  | .rowNumber keys => by
    rw [Expr.bare, Expr.mapQueriesM, Expr.mapQueriesM, keysMapQueriesM_bare hf keys]
    simp only [bind_map_left, map_bind, map_pure, Expr.bare]
  | .cast operand _ => by
    rw [Expr.bare, Expr.mapQueriesM, Expr.mapQueriesM, Expr.mapQueriesM_bare hf operand]
    simp [Expr.bare]
  | .binary _ left right => by
    rw [Expr.bare, Expr.mapQueriesM, Expr.mapQueriesM, Expr.mapQueriesM_bare hf left, Expr.mapQueriesM_bare hf right]
    simp [Expr.bare]
  | .not operand => by
    rw [Expr.bare, Expr.mapQueriesM, Expr.mapQueriesM, Expr.mapQueriesM_bare hf operand]
    simp [Expr.bare]
  | .call _ args _ => by
    rw [Expr.bare, Expr.mapQueriesM, Expr.mapQueriesM, exprsMapQueriesM_bare hf args]
    simp only [bind_map_left, map_bind, map_pure, Expr.bare]
  | .exist query => by
    rw [Expr.bare, Expr.mapQueriesM, Expr.mapQueriesM, Query.mapQueriesM_bare hf query]
    simp [Expr.bare]
  | .column .. | .star _ | .output .. | .constant .. | .parameter .. => by simp [Expr.bare, Expr.mapQueriesM]

theorem Table.mapQueriesM_bare (hf : ∀ q, f q.bare = Query.bare <$> f q) : ∀ t : Table,
    t.bare.mapQueriesM f = Table.bare <$> t.mapQueriesM f
  | .base .. => by
    rw [Table.bare, Table.mapQueriesM]
    simp [Table.bare]
  | .join _ target condition => by
    rw [Table.bare, Table.mapQueriesM, Table.mapQueriesM, Table.mapQueriesM_bare hf target,
      optionMapQueriesM_bare hf condition]
    simp only [bind_map_left, map_bind, map_pure, Table.bare]
  | .nested query => by
    rw [Table.bare, Table.mapQueriesM, Table.mapQueriesM, Query.mapQueriesM_bare hf query]
    simp [Table.bare]

/-- A change that commutes with dropping indexes commutes with it also as a pass over the whole tree. -/
theorem Query.mapQueriesM_bare (hf : ∀ q, f q.bare = Query.bare <$> f q) : ∀ q : Query,
    q.bare.mapQueriesM f = Query.bare <$> q.mapQueriesM f
  | ⟨tables, projection, predicate, orderBy, limit, offset, _, _, _, _, ⟨_, _⟩, _⟩ => by
    rw [Query.bare, Query.mapQueriesM, Query.mapQueriesM, tablesMapQueriesM_bare hf tables,
      exprsMapQueriesM_bare hf projection, optionMapQueriesM_bare hf predicate, keysMapQueriesM_bare hf orderBy,
      optionMapQueriesM_bare hf limit, optionMapQueriesM_bare hf offset]
    simp only [bind_map_left, map_bind, ← hf, Query.bare]

theorem exprsMapQueriesM_bare (hf : ∀ q, f q.bare = Query.bare <$> f q) : ∀ es : List Expr,
    exprsMapQueriesM f (exprsBare es) = exprsBare <$> exprsMapQueriesM f es
  | [] => by
    rw [exprsBare, exprsMapQueriesM, map_pure]
    rfl
  | e :: es => by
    rw [exprsBare, exprsMapQueriesM, exprsMapQueriesM, Expr.mapQueriesM_bare hf e, exprsMapQueriesM_bare hf es]
    simp only [bind_map_left, map_bind, map_pure, exprsBare]

theorem optionMapQueriesM_bare (hf : ∀ q, f q.bare = Query.bare <$> f q) : ∀ e : Option Expr,
    optionMapQueriesM f (optionBare e) = optionBare <$> optionMapQueriesM f e
  | none => by
    rw [optionBare, optionMapQueriesM, map_pure]
    rfl
  | some e => by
    rw [optionBare, optionMapQueriesM, optionMapQueriesM, Expr.mapQueriesM_bare hf e]
    simp only [bind_map_left, map_bind, map_pure, optionBare]

theorem keysMapQueriesM_bare (hf : ∀ q, f q.bare = Query.bare <$> f q) : ∀ keys : List OrderKey,
    keysMapQueriesM f (keysBare keys) = keysBare <$> keysMapQueriesM f keys
  | [] => by
    rw [keysBare, keysMapQueriesM, map_pure]
    rfl
  | ⟨e, _⟩ :: keys => by
    rw [keysBare, OrderKey.bare, keysMapQueriesM, keysMapQueriesM, Expr.mapQueriesM_bare hf e,
      keysMapQueriesM_bare hf keys]
    simp only [bind_map_left, map_bind, map_pure, keysBare, OrderKey.bare]

theorem tablesMapQueriesM_bare (hf : ∀ q, f q.bare = Query.bare <$> f q) : ∀ ts : List Table,
    tablesMapQueriesM f (tablesBare ts) = tablesBare <$> tablesMapQueriesM f ts
  | [] => by
    rw [tablesBare, tablesMapQueriesM, map_pure]
    rfl
  | t :: ts => by
    rw [tablesBare, tablesMapQueriesM, tablesMapQueriesM, Table.mapQueriesM_bare hf t, tablesMapQueriesM_bare hf ts]
    simp only [bind_map_left, map_bind, map_pure, tablesBare]

end

end Pass

theorem PagingPass.step_bare (q : Query) : PagingPass.step q.bare = Query.bare <$> PagingPass.step q := by
  funext p
  show PagingPass.step q.bare p = ((PagingPass.step q p).1.bare, (PagingPass.step q p).2)
  have hneeds : q.bare.needsNumbering = q.needsNumbering := by
    simp [Query.needsNumbering, Function.comp_def]
  have hreplaced := Edit.mirrors_replacePaging p.columnName ⟨q, p.session⟩
  unfold PagingPass.step
  rw [hneeds]
  split
  · rfl
  · rw [show (⟨q.bare, p.session⟩ : Draft) = Draft.bare ⟨q, p.session⟩ from rfl, hreplaced]
    cases Edit.replacePaging p.columnName ⟨q, p.session⟩ <;> rfl

theorem Dialect.replacePaging_bare (dialect : Dialect) (named : Nat) (q : Query) (s : Session) :
    dialect.replacePaging named q.bare s =
      { dialect.replacePaging named q s with query := (dialect.replacePaging named q s).query.bare } := by
  unfold replacePaging
  rw [q.mapQueriesM_bare PagingPass.step_bare]
  split
  · rfl
  · rfl

end QueryTree
