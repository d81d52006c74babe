/-
Operations that fail. Each operation on a query first finds out whether it can be done, and changes
the query only then: one that fails leaves the query, with all that is nested in it, as it was. The
session may have given out one name by then, for a query that was to be pushed down.
-/
import QueryTree.Proofs.Binding.Growth

namespace QueryTree

theorem mapState_error {ε σ τ α : Type} {f : σ → τ} {r : EStateM.Result ε σ α} {e : ε} {t : τ}
    (h : mapState f r = .error e t) : ∃ s, r = .error e s ∧ t = f s := by
  cases r with
  | ok a s => cases h
  | error e' s => cases h; exact ⟨s, rfl, rfl⟩

/-! ## Names that are given out -/

theorem Session.createName_ok {stem name : String} {s s' : Session} (h : s.createName stem = .ok name s') :
    ∃ next, s' = { s with taken := s.taken ++ [name], numbers := Assoc.put stem next s.numbers } := by
  unfold createName at h
  by_cases hstem : stem.isEmpty = true
  · rw [if_pos hstem] at h
    cases h
  · rw [if_neg hstem] at h
    cases h
    exact ⟨_, rfl⟩

theorem Session.createName_error {stem : String} {s s' : Session} {e : Error} (h : createName stem s = .error e s') :
    s' = s := by
  unfold createName at h
  by_cases hstem : stem.isEmpty = true
  · rw [if_pos hstem] at h
    cases h
    rfl
  · rw [if_neg hstem] at h
    cases h

/-- The session is as it was but for one name, if any, that it gave out for a pushed-down query: the
name is taken, and the count of its stem has moved on. -/
def Session.Spent (s s' : Session) : Prop :=
  s' = s ∨ ∃ (name : String) (next : Nat), s.createSubqueryName = .ok name s' ∧
    s' = { s with taken := s.taken ++ [name], numbers := Assoc.put s.settings.subqueryStem next s.numbers }

namespace Edit

variable {α β : Type}

/-! ## Operations that are done as a whole or not at all -/

/-- Where the operation fails the query is as before. -/
def Atomic (act : Edit α) : Prop :=
  ∀ d e d', act d = .error e d' → d'.query = d.query ∧ d.session.Spent d'.session

/-- The operation never fails. -/
def Total (act : Edit α) : Prop := ∀ d, ∃ a d', act d = .ok a d'

theorem total_modifyQuery (f : Query → Query) : Total (modifyQuery f) := fun _ => ⟨_, _, rfl⟩

theorem Total.bind {x : Edit α} {f : α → Edit β} (hx : Total x) (hf : ∀ a, Total (f a)) : Total (x >>= f) := by
  intro d
  obtain ⟨a, d', ha⟩ := hx d
  obtain ⟨b, d'', hb⟩ := hf a d'
  refine ⟨b, d'', ?_⟩
  show EStateM.bind x f d = _
  unfold EStateM.bind
  rw [ha]
  exact hb

theorem Total.atomic {x : Edit α} (hx : Total x) : Atomic x := by
  intro d e d' h
  obtain ⟨a, d'', ha⟩ := hx d
  rw [ha] at h
  cases h

/-- What cannot fail may come after what is atomic. -/
theorem Atomic.bind_total {x : Edit α} {f : α → Edit β} (hx : Atomic x) (hf : ∀ a, Total (f a)) :
    Atomic (x >>= f) := by
  intro d e d' h
  change EStateM.bind x f d = _ at h
  unfold EStateM.bind at h
  rcases hr : x d with ⟨a, d₁⟩ | ⟨err, d₁⟩
  · rw [hr] at h
    obtain ⟨b, d₂, hb⟩ := hf a d₁
    simp only [hb] at h
    cases h
  · rw [hr] at h
    cases h
    exact hx d e d' hr

/-- A push-down that is done only where it has to be, ahead of what cannot fail. -/
theorem atomic_whenThen {p : Prop} [Decidable p] {x : Edit Unit} {rest : Unit → Edit β} (hx : Atomic x)
    (hrest : Total (rest ())) : Atomic (if p then x >>= rest else rest ()) := by
  by_cases hp : p
  · rw [if_pos hp]
    exact hx.bind_total fun _ => hrest
  · rw [if_neg hp]
    exact hrest.atomic

/-- To look at the query first does no harm. -/
theorem atomic_query_bind {f : Query → Edit β} (hf : ∀ q, Atomic (f q)) : Atomic (query >>= f) := by
  intro d e d' h
  rw [query_bind] at h
  exact hf d.query d e d' h

theorem atomic_onQuery {act : EStateM Error Query α} (h : ∀ q e q', act q = .error e q' → q' = q) :
    Atomic (onQuery act) := by
  intro d e d' hd
  unfold onQuery at hd
  rcases hr : act d.query with ⟨a, q⟩ | ⟨err, q⟩
  · rw [hr] at hd
    cases hd
  · rw [hr] at hd
    cases hd
    exact ⟨h d.query e q hr, .inl rfl⟩

/-! ## Operations that push down -/

/-- All keys and members are lifted before anything is moved. -/
theorem pushDown_error {d d' : Draft} {e : Error} (h : pushDown d = .error e d') :
    d' = d ∨ ∃ name, d.session.createSubqueryName = .ok name d'.session ∧
      d.query.pushedDown name = .error e ∧ d'.query = d.query := by
  change EStateM.bind (onSession Session.createSubqueryName) _ d = _ at h
  unfold EStateM.bind onSession at h
  rcases hs : d.session.createSubqueryName with ⟨name, s⟩ | ⟨err, s⟩
  · rw [hs] at h
    simp only [query_bind] at h
    rcases hp : d.query.pushedDown name with err | q
    · simp only [hp] at h
      cases h
      exact .inr ⟨name, rfl, hp, rfl⟩
    · simp only [hp] at h
      cases h
  · rw [hs] at h
    cases h
    rw [Session.createName_error hs]
    exact .inl rfl

theorem atomic_pushDown : Atomic pushDown := by
  intro d e d' h
  rcases pushDown_error h with rfl | ⟨name, hname, -, hquery⟩
  · exact ⟨rfl, .inl rfl⟩
  · obtain ⟨next, hs⟩ := Session.createName_ok hname
    exact ⟨hquery, .inr ⟨name, next, hname, hs⟩⟩

theorem atomic_limitTo (limit : Option Expr) : Atomic (limitTo limit) :=
  atomic_query_bind fun _ => atomic_whenThen atomic_pushDown (total_modifyQuery _)

theorem atomic_startAfter (offset : Option Expr) : Atomic (startAfter offset) :=
  atomic_query_bind fun _ => atomic_whenThen atomic_pushDown (total_modifyQuery _)

theorem atomic_distinctRows (distinct : Bool) : Atomic (distinctRows distinct) :=
  atomic_query_bind fun _ => atomic_whenThen atomic_pushDown (total_modifyQuery _)

/-- The old projection goes only once the query is pushed down. -/
theorem atomic_projectOnly (e : Expr) : Atomic (projectOnly e) :=
  atomic_query_bind fun _ => atomic_whenThen atomic_pushDown <|
    (total_modifyQuery _).bind fun _ _ => ⟨_, _, rfl⟩

end Edit

/-! ## The wildcard -/

namespace Query

theorem expandStarTo_error {count : Option Nat} {q q' : Query} {e : Error} (h : expandStarTo count q = .error e q') :
    q' = q := by
  unfold expandStarTo at h
  split at h
  · split at h
    · cases h
      rfl
    · split at h <;> cases h
      rfl
  · cases h

theorem chooseWildcard_error {name : String} {q q' : Query} {e : Error} (h : chooseWildcard name q = .error e q') :
    q' = q := by
  rw [chooseWildcard_eq] at h
  split at h <;> cases h
  rfl

theorem switchWildcard_error {starred : Bool} {q q' : Query} {e : Error}
    (h : switchWildcard starred q = .error e q') : q' = q := by
  rw [switchWildcard_eq] at h
  split at h <;> cases h
  rfl

/-! ## Binding -/

theorem outputName_of_column {e : Expr} (h : e.unnamed.isColumn = true) : e.outputName.isSome = true := by
  cases e with
  | column | output | named => rfl
  | _ => cases h

theorem stripCasts_of_column {e : Expr} (h : e.unnamed.isColumn = true) : e.stripCasts = e := by
  cases e with
  | cast => cases h
  | _ => rfl

/-- The slot for a column holds a column, also where it has been there before. -/
theorem addSlot_column {e : Expr} (he : e.unnamed.isColumn = true) (q : Query) :
    (q.addSlot e).1.unnamed.isColumn = true := by
  simp only [addSlot, project, stripCasts_of_column he, Bool.false_eq_true, if_false]
  rcases hs : q.slotOf e with _ | i
  · obtain ⟨slot, keys, hun, heq, -⟩ := appendValue_spec e q
    simp only [heq, List.getD_eq_getElem?_getD, List.getElem?_concat_length, Option.getD_some, hun]
    exact he
  · obtain ⟨slot, hi, heq⟩ := slotOf_eq_some hs
    simp only [List.getD_eq_getElem?_getD, hi, Option.getD_some]
    exact Expr.isColumn_of_equiv heq he

/-- A column is shown as a column, and so there is a name to refer to it by. -/
theorem expose_ok (name : String) {e : Expr} (he : e.unnamed.isColumn = true) (q : Query) :
    ∃ e' q', q.expose name e = .ok e' q' := by
  unfold expose
  generalize hshown : (if q.starred && q.wildcardCovers e then (e, q) else q.addSlot e) = shown
  have hcolumn : shown.1.unnamed.isColumn = true := by
    rw [← hshown]
    split
    · exact he
    · exact addSlot_column he q
  obtain ⟨n, hn⟩ := Option.isSome_iff_exists.1 (outputName_of_column hcolumn)
  refine ⟨.output name n shown.1.type, shown.2, ?_⟩
  simp only [Expr.lift, Expr.lift?, hn, Option.map_some]

end Query

section Bind

variable {threshold : Nat} {column : String} {type : DataType} {source : Source} {err : Error}

mutual

theorem Table.bind_error : ∀ {t t' : Table}, t.bind threshold column type source = .error err t' → t' = t
  | .base .., _, h => by rw [Table.bind] at h; cases h
  | .join kind target condition, _, h => by
    rw [Table.bind] at h
    obtain ⟨target', ht, rfl⟩ := mapState_error h
    rw [Table.bind_error ht]
  | .nested q, _, h => by
    rw [Table.bind] at h
    rcases hname : q.name with _ | name
    · rw [hname] at h
      cases h
      rfl
    · rw [hname] at h
      obtain ⟨q', hq, rfl⟩ := mapState_error h
      -- The column that was bound can be shown, so what failed is the binding below.
      rcases hb : q.bind threshold column type source with ⟨e, q₁⟩ | ⟨err', q₁⟩
      · obtain ⟨e', q₂, hok⟩ := q₁.expose_ok name ((Query.grows_bind threshold column type source q).2 e q₁ hb)
        simp only [hb, hok] at hq
        cases hq
      · simp only [hb] at hq
        cases hq
        rw [Query.bind_error hb]

theorem Query.bind_error : ∀ {q q' : Query}, q.bind threshold column type source = .error err q' → q' = q
  | ⟨tables, _, _, _, _, _, _, _, _, _, _, _⟩, _, h => by
    rw [Query.bind] at h
    rcases hb : bindFirst threshold column type source tables with ⟨bound, ts⟩ | ⟨err', ts⟩
    · simp only [hb] at h
      cases h
    · simp only [hb] at h
      cases h
      rw [bindFirst_error hb]

theorem bindFirst_error : ∀ {ts ts' : List Table}, bindFirst threshold column type source ts = .error err ts' → ts' = ts
  | [], _, h => by
    rw [bindFirst] at h
    cases h
    rfl
  | t :: ts, _, h => by
    rw [bindFirst] at h
    by_cases hs : t.serves source = true
    · rw [if_pos hs] at h
      obtain ⟨t', ht, rfl⟩ := mapState_error h
      rw [Table.bind_error ht]
    · rw [if_neg hs] at h
      obtain ⟨ts', hts, rfl⟩ := mapState_error h
      rw [bindFirst_error hts]

end

end Bind

namespace Query

theorem resolveColumn_error {settings : Settings} {column : String} {type : DataType} {source : Source} {q q' : Query}
    {e : Error} (h : resolveColumn settings column type source q = .error e q') : q' = q := by
  unfold resolveColumn at h
  split at h
  · cases h
    rfl
  · exact bind_error h

theorem resolveProperty_error {settings : Settings} {properties : PropertyMap} {property : String} {source : Source}
    {q q' : Query} {e : Error} (h : resolveProperty settings properties property source q = .error e q') : q' = q := by
  unfold resolveProperty at h
  rcases hc : properties.column? property source with _ | ⟨column, type⟩
  · rw [hc] at h
    cases h
    rfl
  · rw [hc] at h
    exact resolveColumn_error h

end Query

/-! ## All operations that can fail -/

open Edit in
/-- An operation that fails leaves the whole tree as it was, and takes from the session at most the
name for a push-down that did not come about. -/
theorem failure_keeps_query :
    Atomic pushDown ∧
    (∀ count, Atomic (onQuery (Query.expandStarTo count))) ∧
    (∀ limit, Atomic (limitTo limit)) ∧
    (∀ offset, Atomic (startAfter offset)) ∧
    (∀ distinct, Atomic (distinctRows distinct)) ∧
    (∀ e, Atomic (projectOnly e)) ∧
    (∀ name, Atomic (onQuery (Query.chooseWildcard name))) ∧
    (∀ starred, Atomic (onQuery (Query.switchWildcard starred))) ∧
    (∀ settings column type source, Atomic (onQuery (Query.resolveColumn settings column type source))) ∧
    ∀ settings properties property source,
      Atomic (onQuery (Query.resolveProperty settings properties property source)) := by
  refine ⟨atomic_pushDown, fun count => ?_, atomic_limitTo, atomic_startAfter, atomic_distinctRows, atomic_projectOnly,
    fun name => ?_, fun starred => ?_, fun settings column type source => ?_,
    fun settings properties property source => ?_⟩
  · exact atomic_onQuery fun _ _ _ => Query.expandStarTo_error
  · exact atomic_onQuery fun _ _ _ => Query.chooseWildcard_error
  · exact atomic_onQuery fun _ _ _ => Query.switchWildcard_error
  · exact atomic_onQuery fun _ _ _ => Query.resolveColumn_error
  · exact atomic_onQuery fun _ _ _ => Query.resolveProperty_error

end QueryTree
