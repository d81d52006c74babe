/-
Histories of binding. Several queries are at hand; columns are bound in them, they are copied, pushed
down, written to JSON and read back, in any order. The indexes of memos, which some of these steps build,
move along or lose, have no part in what comes out.
-/
import QueryTree.Edit
import QueryTree.Proofs.Binding.Scan
import QueryTree.Proofs.Failure

namespace QueryTree

/-! ## JSON -/

mutual

theorem Table.toJson_unindexed : ∀ t : Table, t.unindexed.toJson = t.toJson
  | .base .. => rfl
  | .join _ target _ => by rw [Table.unindexed, Table.toJson, Table.toJson, Table.toJson_unindexed target]
  | .nested q => by rw [Table.unindexed, Table.toJson, Table.toJson, Query.toJson_unindexed q]

/-- The index is not written. -/
theorem Query.toJson_unindexed : ∀ q : Query, q.unindexed.toJson = q.toJson
  | ⟨tables, _, _, _, _, _, _, _, _, _, ⟨_, _⟩, _⟩ => by
    rw [Query.unindexed, Query.toJson, Query.toJson, tablesJson_unindexed tables]

theorem tablesJson_unindexed : ∀ ts : List Table, tablesJson (tablesUnindexed ts) = tablesJson ts
  | [] => rfl
  | t :: ts => by rw [tablesUnindexed, tablesJson, tablesJson, Table.toJson_unindexed t, tablesJson_unindexed ts]

end

theorem map_eq_self_of_mapM {α β : Type} {f : α → Option β} {g : β → β} (h : ∀ {a b}, f a = some b → g b = b) :
    ∀ {as : List α} {bs : List β}, as.mapM f = some bs → bs.map g = bs
  | [], _, hb => by
    rw [List.mapM_nil] at hb
    cases hb
    rfl
  | a :: as, _, hb => by
    rw [List.mapM_cons] at hb
    obtain ⟨b, ha, hb⟩ := Option.bind_eq_some_iff.1 hb
    obtain ⟨bs, has, hb⟩ := Option.bind_eq_some_iff.1 hb
    cases hb
    rw [List.map_cons, h ha, map_eq_self_of_mapM h has]

/-- What is read has no index, at any depth. -/
theorem unindexed_of_read : ∀ depth : Nat,
    (∀ {j t}, readTable depth j = some t → t.unindexed = t) ∧ ∀ {j q}, readQuery depth j = some q → q.unindexed = q
  | 0 => ⟨fun h => by simp [readTable] at h, fun h => by simp [readQuery] at h⟩
  | depth + 1 => by
    -- Tables and nested queries are read with one level of depth less.
    obtain ⟨htable, hquery⟩ := unindexed_of_read depth
    refine ⟨fun {j t} h => ?_, fun {j q} h => ?_⟩
    · unfold readTable at h
      split at h
      · rename_i heq _
        cases heq
        split at h
        · iterate 5 obtain ⟨_, -, h⟩ := Option.bind_eq_some_iff.1 h
          cases h
          rfl
        · iterate 2 obtain ⟨_, -, h⟩ := Option.bind_eq_some_iff.1 h
          obtain ⟨target, ht, h⟩ := Option.bind_eq_some_iff.1 h
          obtain ⟨_, -, h⟩ := Option.bind_eq_some_iff.1 h
          cases h
          rw [Table.unindexed, htable ht]
        · obtain ⟨q, hq, rfl⟩ := Option.map_eq_some_iff.1 h
          rw [Table.unindexed, hquery hq]
        · cases h
      · cases h
    · -- Of all the fields that are read only the tables have queries below.
      unfold readQuery at h
      iterate 4 obtain ⟨_, -, h⟩ := Option.bind_eq_some_iff.1 h
      obtain ⟨tables, ht, h⟩ := Option.bind_eq_some_iff.1 h
      iterate 14 obtain ⟨_, -, h⟩ := Option.bind_eq_some_iff.1 h
      cases h
      rw [Query.unindexed_eq, map_eq_self_of_mapM htable ht]

theorem Query.unindexed_of_ofJson? {j : Json} {q : Query} (h : ofJson? j = some q) : q.unindexed = q :=
  (unindexed_of_read _).2 h

/-! ## Push-down -/

theorem except_map_bind {ε α β γ : Type} (f : β → γ) (x : Except ε α) (g : α → Except ε β) :
    (x >>= g).map f = x >>= fun a => (g a).map f := by
  cases x <;> rfl

/-- A push-down moves the memo as it is, and looks at neither its index nor those below. -/
theorem Query.pushedDown_unindexed (name : String) (q : Query) :
    q.unindexed.pushedDown name = (q.pushedDown name).map unindexed := by
  have hchild : q.unindexed.firstChild name = q.firstChild name := by rw [unindexed_eq]; rfl
  unfold pushedDown
  simp only [unindexed_wildcardTable, hchild]
  rw [unindexed_eq q, except_map_bind]
  simp only [pure, Except.pure, Except.map, unindexed_eq, List.map_cons, List.map_nil, Table.unindexed]

theorem Edit.pushDown_unindexed (q : Query) (s : Session) : pushDown ⟨q.unindexed, s⟩ =
    mapState (fun d => { d with query := d.query.unindexed }) (pushDown ⟨q, s⟩) := by
  show EStateM.bind (onSession Session.createSubqueryName) _ ⟨q.unindexed, s⟩ =
    mapState _ (EStateM.bind (onSession Session.createSubqueryName) _ ⟨q, s⟩)
  unfold EStateM.bind onSession
  rcases s.createSubqueryName with ⟨name, s'⟩ | ⟨err, s'⟩
  · simp only [query_bind, Query.pushedDown_unindexed]
    cases q.pushedDown name <;> rfl
  · rfl

theorem Query.Consistent.pushedDown {t : String} {q p : Query} (hq : q.Consistent) (h : q.pushedDown t = .ok p) :
    p.Consistent := by
  obtain ⟨c, copies, added, hmoved⟩ := pushedDown_moved h
  have htables : p.tables = [.nested c] := by rw [hmoved.parent]
  have hmemo : c.memo = q.memo := by rw [hmoved.child]
  have hbelow : c.tables ⊆ q.tables := by rw [hmoved.child]; exact List.Subset.refl _
  refine ⟨by rw [hmoved.parent]; exact StarMemo.consistent_of_entries [], fun x hx => ?_⟩
  cases hx with
  | table ht hx =>
    rw [htables, List.mem_singleton] at ht
    subst ht
    cases hx
    rw [hmemo]; exact hq.1
  | deeper ht hc hx =>
    rw [htables, List.mem_singleton] at ht
    subst ht
    cases hc
    exact hq.2 x (.of_tables hbelow hx)

/-! ## Histories -/

/-- Queries at hand and the session that they take names from. -/
structure Workbench where
  queries : List Query
  session : Session

/-- Something that is done to the query at place `i`. A copy is put at the end; a query that is written
to JSON and read back takes the place of the one before. -/
inductive Work
  | bind (i : Nat) (settings : Settings) (column : String) (type : DataType) (source : Source)
  | copy (i : Nat)
  | pushDown (i : Nat)
  | reread (i : Nat)

/-- A way to bind columns. -/
abbrev Binder := Settings → String → DataType → Source → EStateM Error Query Expr

namespace Workbench

def put (i : Nat) (q : Query) (w : Workbench) : Workbench := { w with queries := w.queries.set i q }

/-- One step, with the answer where a column is bound. -/
def step (binder : Binder) (work : Work) (w : Workbench) : Option (Except Error Expr) × Workbench :=
  match work with
  | .bind i settings column type source =>
    match w.queries[i]? with
    | none => (none, w)
    | some q => match binder settings column type source q with
      | .ok e q => (some (.ok e), w.put i q)
      | .error err q => (some (.error err), w.put i q)
  | .copy i => (none, { w with queries := w.queries ++ w.queries[i]?.toList })
  | .pushDown i =>
    match w.queries[i]? with
    | none => (none, w)
    | some q =>
      let d := stateOf (Edit.pushDown ⟨q, w.session⟩)
      (none, { w.put i d.query with session := d.session })
  | .reread i =>
    match w.queries[i]?.bind fun q => Query.ofJson? q.toJson with
    | none => (none, w)
    | some q => (none, w.put i q)

/-- All steps one after the other, with their answers. -/
def run (binder : Binder) : List Work → Workbench → List (Option (Except Error Expr)) × Workbench
  | [], w => ([], w)
  | work :: works, w =>
    let (answer, w) := w.step binder work
    let (answers, w) := run binder works w
    (answer :: answers, w)

def unindexed (w : Workbench) : Workbench := { w with queries := w.queries.map Query.unindexed }

/-- All memos at hand are consistent. -/
def Consistent (w : Workbench) : Prop := ∀ q ∈ w.queries, q.Consistent

variable {w : Workbench}

theorem Consistent.get (h : w.Consistent) {i : Nat} {q : Query} (hq : w.queries[i]? = some q) : q.Consistent :=
  h q (List.mem_of_getElem? hq)

theorem Consistent.put (h : w.Consistent) (i : Nat) {q : Query} (hq : q.Consistent) : (w.put i q).Consistent := by
  intro r hr
  rcases List.mem_or_eq_of_mem_set hr with hr | rfl
  · exact h r hr
  · exact hq

theorem unindexed_put (w : Workbench) (i : Nat) (q : Query) :
    (w.put i q).unindexed = w.unindexed.put i q.unindexed := by
  simp only [unindexed, Workbench.put, List.map_set]

theorem unindexed_get (w : Workbench) (i : Nat) : w.unindexed.queries[i]? = w.queries[i]?.map Query.unindexed :=
  List.getElem?_map

/-- One step builds indexes only that are consistent. -/
theorem Consistent.step (h : w.Consistent) (work : Work) : (w.step Query.resolveColumn work).2.Consistent := by
  cases work with
  | bind i settings column type source =>
    unfold Workbench.step
    simp only
    rcases hq : w.queries[i]? with _ | q
    · exact h
    · have hgrown := (q.grows_resolveColumn settings column type source).consistent (h.get hq)
      simp only
      rcases hb : q.resolveColumn settings column type source with ⟨e, q'⟩ | ⟨err, q'⟩
      · rw [hb] at hgrown
        exact h.put i hgrown
      · rw [hb] at hgrown
        exact h.put i hgrown
  | copy i =>
    intro q hq
    rcases List.mem_append.1 hq with hq | hq
    · exact h q hq
    · exact h.get (Option.mem_toList.1 hq)
  | pushDown i =>
    unfold Workbench.step
    simp only
    rcases hq : w.queries[i]? with _ | q
    · exact h
    · refine h.put i (q := (stateOf (Edit.pushDown ⟨q, w.session⟩)).query) ?_
      -- The memo goes down with the wildcard, and a failed push-down leaves it in place.
      rcases hp : Edit.pushDown ⟨q, w.session⟩ with ⟨_, d⟩ | ⟨err, d⟩
      · obtain ⟨t, -, hpushed⟩ := Edit.pushDown_ok hp
        exact (h.get hq).pushedDown hpushed
      · rw [stateOf, (Edit.atomic_pushDown _ _ _ hp).1]
        exact h.get hq
  | reread i =>
    unfold Workbench.step
    simp only
    rcases hq : w.queries[i]?.bind fun q => Query.ofJson? q.toJson with _ | q
    · exact h
    · -- Indexes are not written, so that none is read.
      obtain ⟨q₀, -, hread⟩ := Option.bind_eq_some_iff.1 hq
      rw [← Query.unindexed_of_ofJson? hread]
      exact h.put i q.consistent_unindexed

/-- Without indexes a step comes to the same. -/
theorem Consistent.step_unindexed (h : w.Consistent) (work : Work) :
    w.unindexed.step (fun _ => Query.resolveByScan) work =
      ((w.step Query.resolveColumn work).1, (w.step Query.resolveColumn work).2.unindexed) := by
  cases work with
  | bind i settings column type source =>
    unfold Workbench.step
    simp only [unindexed_get]
    rcases hq : w.queries[i]? with _ | q
    · rfl
    · simp only [Option.map_some, Query.resolveColumn_unindexed settings column type source (h.get hq)]
      rcases q.resolveColumn settings column type source with ⟨e, q'⟩ | ⟨err, q'⟩
      · simp only [mapState, unindexed_put]
      · simp only [mapState, unindexed_put]
  | copy i =>
    simp only [Workbench.step, unindexed, List.getElem?_map, List.map_append, Option.toList_map]
  | pushDown i =>
    unfold Workbench.step
    simp only [unindexed_get]
    rcases hq : w.queries[i]? with _ | q
    · rfl
    · have hsession : w.unindexed.session = w.session := rfl
      simp only [Option.map_some, hsession, Edit.pushDown_unindexed, stateOf_mapState]
      simp only [unindexed, Workbench.put, List.map_set]
  | reread i =>
    unfold Workbench.step
    simp only [unindexed_get, Option.bind_map]
    -- The encoding leaves indexes out.
    have hread : (fun q : Query => Query.ofJson? q.unindexed.toJson) = fun q => Query.ofJson? q.toJson := by
      funext q; rw [Query.toJson_unindexed]
    simp only [Function.comp_def, hread]
    rcases hq : w.queries[i]?.bind fun q => Query.ofJson? q.toJson with _ | q
    · rfl
    · obtain ⟨q₀, -, hof⟩ := Option.bind_eq_some_iff.1 hq
      simp only [unindexed_put, Query.unindexed_of_ofJson? hof]

/-- Memos that are plain lists, scanned for the first equal entry and never indexed, give the same
answers to the same requests and gain the same entries, at each step of any history. -/
theorem run_by_scan (h : w.Consistent) (works : List Work) :
    w.unindexed.run (fun _ => Query.resolveByScan) works =
      ((w.run Query.resolveColumn works).1, (w.run Query.resolveColumn works).2.unindexed) := by
  induction works generalizing w with
  | nil => rfl
  | cons work works ih =>
    simp only [run, h.step_unindexed work, ih (h.step work)]

/-- The first copy is read back and has lost the index that the first request has built, the second is
pushed down and has it one level further down. -/
theorem run_by_scan_copies :
    let column : Expr := .column "p" (some ⟨1⟩) "Name" .text
    let n : Query := {
      tables := [.base "People" none "p" (some ⟨1⟩)]
      name := some "n"
      starred := true
      memo := { entries := [.named "Who" column, column] } }
    let w : Workbench := { queries := [{ tables := [.nested n] }], session := {} }
    let works : List Work := [.bind 0 { indexThreshold := 0 } "Id" .int32 ⟨1⟩, .copy 0, .copy 0, .reread 1, .pushDown 2,
      .bind 0 {} "Name" .text ⟨1⟩, .bind 1 {} "Id" .int32 ⟨1⟩, .bind 2 {} "Name" .text ⟨1⟩, .bind 2 {} "Id" .int32 ⟨2⟩]
    w.Consistent ∧
      w.unindexed.run (fun _ => Query.resolveByScan) works =
        ((w.run Query.resolveColumn works).1, (w.run Query.resolveColumn works).2.unindexed) ∧
      (w.run Query.resolveColumn works).1.map (·.map fun answer => answer.toOption.bind Expr.address) =
        [some (some ("n", "Id")), none, none, none, none, some (some ("n", "Who")), some (some ("n", "Id")),
          some (some ("t", "Who")), some none] := by
  intro column n w works
  have hw : w.Consistent := by
    intro q hq
    rw [List.mem_singleton] at hq
    subst hq
    exact Query.consistent_unindexed { tables := [.nested n] }
  have hrun := run_by_scan hw works
  refine ⟨hw, hrun, ?_⟩
  rw [← congrArg Prod.fst hrun]
  decide +kernel

end Workbench
end QueryTree
