/-
The table that a wildcard stands for. A table that was chosen stays one of the query, whatever the
operations do, so a wildcard over a chosen table can always be resolved. Without a choice it can as long
as there is a single table, and no operation sees to it that there is.
-/
import QueryTree.Proofs.Composed

namespace QueryTree

/-! ## Assembled queries -/

/-- A query that the operations compose, where a nested query that is put back changed has kept its
name: no operation takes or changes the name of a query. -/
inductive Query.Assembled : Query → Prop
  | fresh (name : Option String) : Assembled { name }
  | part {q c : Query} : Assembled q → c ∈ q.parts → Assembled c
  | withPart {q c c' : Query} {t : Table} (i : Nat) : Assembled q → q.tables[i]? = some t → t.query? = some c →
      Assembled c' → c'.name = c.name → Assembled { q with tables := q.tables.set i (t.withUnjoined (.nested c')) }
  | operation {q : Query} (op : Operation) (s : Session) : Assembled q → (∀ c ∈ op.given, Assembled c) →
      Assembled (op.run s q)

namespace Query

/-- What an operation leaves that is given no queries. -/
theorem Assembled.apply {q : Query} (op : Operation) (h : q.Assembled) (hgiven : op.given = [] := by rfl) :
    (op.run {} q).Assembled := by
  refine .operation op {} h ?_
  rw [hgiven]
  exact fun c hc => absurd hc List.not_mem_nil

theorem Assembled.everywhere {L : Query → Prop} (hL : Local L) {q : Query} (h : q.Assembled) : q.Everywhere L := by
  induction h with
  | fresh name => exact everywhere_fresh hL name
  | part _ hc ih => exact ((everywhere_iff_parts _).1 ih).2 _ hc
  | withPart _ _ ht hc _ hname ih ih' => exact ih.withPart hL ht hc ih' hname
  | operation op s _ _ ih hgiven => exact ih.run hL s op hgiven

/-! ## Chosen tables -/

/-- The table chosen for the wildcard, if one is, is a table of the query. -/
def ChoiceListed (q : Query) : Prop := ∀ a, q.wildcardChoice = some a → some a ∈ q.tables.map Table.name

/-- The choice goes with the table. A table that goes alone has another name than the one chosen. -/
theorem choiceListed_detachTable (name : String) {q : Query} (h : q.ChoiceListed) :
    (q.detachTable name).2.ChoiceListed := by
  unfold detachTable
  generalize hi : q.tables.findIdx? (·.name == some name) = i
  cases i with
  | none => exact h
  | some i =>
    obtain ⟨hlt, hname, -⟩ := List.findIdx?_eq_some_iff_getElem.1 hi
    intro a ha
    change (if q.wildcardChoice == some name then none else q.wildcardChoice) = some a at ha
    show some a ∈ (q.tables.eraseIdx i).map Table.name
    split at ha
    · cases ha
    · rename_i hother
      obtain ⟨t, ht, hta⟩ := List.mem_map.1 (h a ha)
      obtain ⟨j, hj, rfl⟩ := List.getElem_of_mem ht
      have hij : j ≠ i := by
        rintro rfl
        have hsame : some a = some name := hta.symm.trans (eq_of_beq hname)
        exact hother (beq_iff_eq.2 (ha.trans hsame))
      exact List.mem_map.2 ⟨q.tables[j], List.mem_eraseIdx_iff_getElem.2 ⟨j, hj, hij, rfl⟩, hta⟩

/-- What is chosen is a table at the time, and tables go no other way than by name or in a push-down,
together with the choice. -/
theorem choiceListed_local : Local fun q => q.Orderly ∧ q.ChoiceListed where
  memo h := h.1.memo
  fresh name := ⟨orderly_local.fresh name, fun _ ha => nomatch ha⟩
  congr {q r} h hname hmemo hchoice htables hslots := by
    refine ⟨orderly_local.congr h.1 hname hmemo hchoice htables hslots, fun a ha => ?_⟩
    rw [htables]
    exact h.2 a (hchoice ▸ ha)
  projectNothing h := ⟨orderly_local.projectNothing h.1, h.2⟩
  project e explicit q h := by
    refine ⟨orderly_local.project e explicit h.1, ?_⟩
    obtain ⟨slots, keys, starred, heq⟩ := project_eq e explicit q
    rw [heq]
    exact h.2
  remember threshold _ _ he h := ⟨orderly_local.remember threshold he h.1, h.2⟩
  appendTable t q h := by
    refine ⟨orderly_local.appendTable t h.1, fun a ha => ?_⟩
    show some a ∈ (q.tables ++ [t]).map Table.name
    rw [List.map_append]
    exact List.mem_append_left _ (h.2 a ha)
  detachTable name _ h := ⟨orderly_local.detachTable name h.1, choiceListed_detachTable name h.2⟩
  chooseWildcard {name q} hany h := by
    refine ⟨orderly_local.chooseWildcard hany h.1, fun a ha => ?_⟩
    obtain ⟨t, ht, hname⟩ := List.any_eq_true.1 hany
    cases ha
    exact List.mem_map.2 ⟨t, ht, eq_of_beq hname⟩
  pushedDown {t q p c copies added} hmoved h := by
    obtain ⟨hparent, hchild⟩ := orderly_local.pushedDown hmoved h.1
    refine ⟨⟨hparent, ?_⟩, hchild, ?_⟩
    · -- What is left is a choice of the query below, by its new name.
      intro a ha
      rw [hmoved.parent] at ha ⊢
      cases ha
      rw [hmoved.child]
      exact List.mem_singleton_self _
    · rw [hmoved.child]
      exact h.2

/-! ## Wildcards that can be resolved -/

/-- The wildcard stands for a table of the query. -/
def Resolves (q : Query) : Prop := ∃ a, q.wildcardTable = some a ∧ ∃ t ∈ q.tables, t.name = some a

instance (q : Query) : Decidable q.Resolves :=
  decidable_of_iff (∃ a ∈ q.wildcardTable, ∃ t ∈ q.tables, t.name = some a) Iff.rfl

theorem resolves_iff {q : Query} (h : q.ChoiceListed) :
    q.Resolves ↔ q.wildcardChoice.isSome = true ∨ ∃ t, q.tables = [t] ∧ t.name.isSome = true := by
  unfold Resolves wildcardTable
  constructor
  · rintro ⟨a, ha, -⟩
    split at ha
    · rename_i hchoice
      exact .inl (by rw [hchoice]; rfl)
    · rename_i t _ htables
      exact .inr ⟨t, htables, by rw [ha]; rfl⟩
    · cases ha
  · intro hq
    rcases hchoice : q.wildcardChoice with _ | a
    · rw [hchoice] at hq
      obtain ⟨t, htables, hname⟩ := hq.resolve_left Bool.false_ne_true
      obtain ⟨a, ha⟩ := Option.isSome_iff_exists.1 hname
      rw [htables]
      exact ⟨a, ha, t, List.mem_singleton_self t, ha⟩
    · exact ⟨a, rfl, List.mem_map.1 (h a hchoice)⟩

end Query

/-- In every query of an assembled tree, the table that a wildcard stands for is one of the query exactly
if a table is chosen, or there is none but one with a name. -/
theorem wildcard_resolves_iff {q x : Query} (hq : q.Assembled) (hx : x.Within q) :
    x.Resolves ↔ x.wildcardChoice.isSome = true ∨ ∃ t, x.tables = [t] ∧ t.name.isSome = true :=
  Query.resolves_iff (hq.everywhere Query.choiceListed_local x hx).2

/-- In a push-down the choice goes along with the tables. -/
theorem wildcard_resolves_below :
    let read := (({} : Query).appendTable (.base "People" none "p" (some ⟨1⟩))).appendTable
      (.base "Orders" none "o" (some ⟨2⟩))
    let chosen := stateOf (Query.chooseWildcard "o" read)
    let starred := stateOf (Query.switchWildcard true chosen)
    let q := (stateOf (Edit.pushDown ⟨starred, {}⟩)).query
    let x : Query := { starred with name := some "t" }
    q.Assembled ∧ x.Within q ∧ x.starred = true ∧
      (x.Resolves ↔ x.wildcardChoice.isSome = true ∨ ∃ t, x.tables = [t] ∧ t.name.isSome = true) ∧ x.Resolves := by
  intro read chosen starred q x
  have hread : read.Assembled := (Query.Assembled.fresh none).apply (.appendTable (.base "People" none "p" (some ⟨1⟩)))
    |>.apply (.appendTable (.base "Orders" none "o" (some ⟨2⟩)))
  have hstarred : starred.Assembled := hread.apply (.chooseWildcard "o") |>.apply (.switchWildcard true)
  have hq : q.Assembled := hstarred.apply .pushDown
  have hpushed : q.tables = [.nested x] := by rfl
  have hx : x.Within q := by
    refine .part ?_ .root
    simp [Query.parts, Query.children, hpushed, Table.children]
  have hiff := wildcard_resolves_iff hq hx
  exact ⟨hq, hx, rfl, hiff, hiff.2 (.inl rfl)⟩

/-- A second table takes the wildcard over the only one its table. -/
theorem wildcard_unresolved_beside :
    let people := ({} : Query).appendTable (.base "People" none "p" (some ⟨1⟩))
    let starred := stateOf (Query.switchWildcard true people)
    let q := starred.appendTable (.base "Orders" none "o" (some ⟨2⟩))
    q.Assembled ∧ q.Within q ∧ starred.Resolves ∧ q.starred = true ∧ q.wildcardTable = none ∧ ¬ q.Resolves := by
  intro people starred q
  have hq : q.Assembled := (Query.Assembled.fresh none).apply (.appendTable (.base "People" none "p" (some ⟨1⟩)))
    |>.apply (.switchWildcard true)
    |>.apply (.appendTable (.base "Orders" none "o" (some ⟨2⟩)))
  exact ⟨hq, .root, by decide, rfl, rfl, by decide⟩

end QueryTree
