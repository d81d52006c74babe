/-
How a binding ends. It fails if the column has no name, if no table satisfies the source, or if a
nested query on the way to the column has no name, in this order, and for no other reason. Where it
succeeds, the queries on the way have remembered the column in their memos, the nested ones show it
in a slot of their own, and the rest of the tree is as it was.
-/
import QueryTree.Proofs.Sources

namespace QueryTree

/-! ## The way to a column -/

mutual

/-- The nested queries, from the outside in, that a column of source `s` is bound through in a table
that satisfies `s`. -/
def Table.wayTo (s : Source) : Table → List Query
  | .base _ _ _ _ => []
  | .join _ target _ => target.wayTo s
  | .nested q => q :: q.wayTo s

/-- The nested queries on the way to a column of source `s`: on each level the way leads through the
first table that satisfies `s`. -/
def Query.wayTo (s : Source) : Query → List Query
  | { tables, .. } => firstWayTo s tables

def firstWayTo (s : Source) : List Table → List Query
  | [] => []
  | t :: ts => if t.serves s then t.wayTo s else firstWayTo s ts

end

/-! ## Binding that fails -/

section Refusal

variable {s : Source}

/-- Below a table that satisfies the source only a missing name is in the way. -/
def unnamedOn (way : List Query) : Option Error := if way.any (·.name.isNone) then some .unnamedQuery else none

theorem unnamedOn_cons (q : Query) (way : List Query) :
    unnamedOn (q :: way) = if q.name.isSome then unnamedOn way else some .unnamedQuery := by
  unfold unnamedOn
  rw [List.any_cons]
  cases q.name with
  | none => rfl
  | some name => rfl

mutual

theorem Table.refusal_of_serves : ∀ {t : Table}, t.serves s = true → t.refusal s = unnamedOn (t.wayTo s)
  | .base .., _ => rfl
  | .join _ target _, h => by
    rw [Table.refusal, Table.wayTo]
    exact Table.refusal_of_serves (t := target) h
  | .nested q, h => by
    rw [Table.serves] at h
    rw [Table.refusal, Table.wayTo, unnamedOn_cons, Query.refusal_of_serves h]

theorem Query.refusal_of_serves : ∀ {q : Query}, q.serves s = true → q.refusal s = unnamedOn (q.wayTo s)
  | ⟨tables, _, _, _, _, _, _, _, _, _, _, _⟩, h => by
    rw [Query.serves] at h
    rw [Query.refusal, Query.wayTo]
    exact firstRefusal_of_serves h

theorem firstRefusal_of_serves :
    ∀ {ts : List Table}, anyServes s ts = true → firstRefusal s ts = unnamedOn (firstWayTo s ts)
  | [], h => by cases h
  | t :: ts, h => by
    rw [anyServes] at h
    rw [firstRefusal, firstWayTo]
    by_cases ht : t.serves s = true
    · rw [if_pos ht, if_pos ht]
      exact Table.refusal_of_serves ht
    · rw [Bool.not_eq_true] at ht
      rw [ht, Bool.false_or] at h
      simp only [ht, Bool.false_eq_true, if_false]
      exact firstRefusal_of_serves h

end

theorem firstRefusal_of_not_serves : ∀ {ts : List Table}, ts.any (Table.serves s) = false →
    firstRefusal s ts = some (.unknownSource s)
  | [], _ => rfl
  | t :: ts, h => by
    rw [List.any_cons, Bool.or_eq_false_iff] at h
    rw [firstRefusal, h.1]
    exact firstRefusal_of_not_serves h.2

end Refusal

/-! ## Binding that succeeds -/

/-- `memo'` is the memo with `bound` at the end. -/
structure StarMemo.Appended (memo : StarMemo Expr) (bound : List Expr) (memo' : StarMemo Expr) : Prop where
  entries : memo'.entries = memo.entries ++ bound
  unchanged : bound = [] → memo' = memo

mutual

/-- `r` is `q` with `slots` at the end of its projection and columns at the end of its memo, and
likewise for the nested queries below the first table that satisfies `s`. All else is the same. -/
inductive Query.AfterBinding (s : Source) : List Expr → Query → Query → Prop
  | intro {q : Query} {before after : List Table} {t t' : Table} {slots bound : List Expr} {memo : StarMemo Expr} :
      q.tables = before ++ t :: after → (∀ u ∈ before, u.serves s = false) → t.serves s = true →
      Table.AfterBinding s t t' → q.memo.Appended bound memo →
      Query.AfterBinding s slots q
        { q with tables := before ++ t' :: after, projection := q.projection ++ slots, memo }

/-- The query below the joins of the table, if there is one, is after a binding. -/
inductive Table.AfterBinding (s : Source) : Table → Table → Prop
  | base (table : String) (schema : Option String) (name : String) (source : Option Source) :
      Table.AfterBinding s (.base table schema name source) (.base table schema name source)
  | join (kind : JoinKind) {target target' : Table} (condition : Option Expr) : Table.AfterBinding s target target' →
      Table.AfterBinding s (.join kind target condition) (.join kind target' condition)
  | nested {slots : List Expr} {q q' : Query} : Query.AfterBinding s slots q q' →
      Table.AfterBinding s (.nested q) (.nested q')

end

/-- The first table that satisfies `s` is after a binding, and the others are as they were. -/
inductive FirstAfterBinding (s : Source) : List Table → List Table → Prop
  | intro {before after : List Table} {t t' : Table} : (∀ u ∈ before, u.serves s = false) → t.serves s = true →
      t.AfterBinding s t' → FirstAfterBinding s (before ++ t :: after) (before ++ t' :: after)

theorem FirstAfterBinding.cons {s : Source} {ts us : List Table} {t : Table} (h : FirstAfterBinding s ts us)
    (ht : t.serves s = false) : FirstAfterBinding s (t :: ts) (t :: us) := by
  cases h with
  | @intro before after u u' hbefore hu hafter =>
    rw [← List.cons_append, ← List.cons_append]
    exact .intro (List.forall_mem_cons.2 ⟨ht, hbefore⟩) hu hafter

namespace StarMemo

theorem appended_nil (memo : StarMemo Expr) : memo.Appended [] memo := ⟨(List.append_nil _).symm, fun _ => rfl⟩

theorem appended_remember (threshold : Nat) (e : Expr) (memo : StarMemo Expr) :
    ∃ bound, memo.Appended bound (memo.remember threshold e).2 := by
  rcases remember_cases threshold e memo with ⟨entry, -, -, hr⟩ | ⟨-, hentries⟩
  · rw [hr]
    exact ⟨[], appended_nil memo⟩
  · exact ⟨[e], hentries, fun h => by cases h⟩

end StarMemo

namespace Query

variable {s : Source}

/-- A column is shown without a change to the sort keys: they are not addressed by its name. -/
theorem addSlot_of_column {e : Expr} (he : e.unnamed.isColumn = true) (q : Query) :
    ∃ added, (q.addSlot e).2 = { q with projection := q.projection ++ added } := by
  simp only [addSlot, project, stripCasts_of_column he, Bool.false_eq_true, if_false]
  rcases q.slotOf e with _ | i
  · have hkey : q.keyToName e = none := by rw [keyToName, if_pos he]
    refine ⟨[q.newSlot e], ?_⟩
    rw [appendValue_eq, hkey]
  · exact ⟨[], by cases q; rw [List.append_nil]⟩

/-- What is exposed is the column itself where the wildcard has it, and else its slot. -/
theorem expose_shown {name : String} {e e' : Expr} {q q' : Query} (h : q.expose name e = .ok e' q') :
    (if q.starred && q.wildcardCovers e then (e, q) else q.addSlot e).1.lift name = .ok e' ∧
      q' = (if q.starred && q.wildcardCovers e then (e, q) else q.addSlot e).2 := by
  unfold expose at h
  generalize (if q.starred && q.wildcardCovers e then (e, q) else q.addSlot e) = shown at h ⊢
  rcases hl : shown.1.lift name with err | lifted
  · simp only [hl] at h
    cases h
  · simp only [hl] at h
    cases h
    exact ⟨rfl, rfl⟩

theorem expose_appends {name : String} {e e' : Expr} {q q' : Query} (he : e.unnamed.isColumn = true)
    (h : q.expose name e = .ok e' q') : ∃ added, q' = { q with projection := q.projection ++ added } := by
  rw [(expose_shown h).2]
  split
  · exact ⟨[], by cases q; rw [List.append_nil]⟩
  · exact addSlot_of_column he q

theorem AfterBinding.append {slots : List Expr} {q r : Query} (h : AfterBinding s slots q r) (added : List Expr) :
    AfterBinding s (slots ++ added) q { r with projection := r.projection ++ added } := by
  cases h with
  | intro htables hbefore ht hafter hmemo =>
    simp only [List.append_assoc]
    exact .intro htables hbefore ht hafter hmemo

/-- What stands for the column may be remembered. -/
theorem AfterBinding.standIn (threshold : Nat) {bound : Expr} {q : Query} {ts : List Table}
    (h : FirstAfterBinding s q.tables ts) :
    AfterBinding s [] q ({ q with tables := ts }.standIn threshold bound).2 := by
  generalize htables : q.tables = old at h
  cases h with
  | intro hbefore ht hafter =>
    have hsame : ∀ {added memo}, q.memo.Appended added memo → AfterBinding s [] q _ := fun hmemo =>
      AfterBinding.intro htables hbefore ht hafter hmemo
    simp only [List.append_nil] at hsame
    unfold Query.standIn
    split
    · obtain ⟨added, hmemo⟩ := q.memo.appended_remember threshold bound
      exact hsame hmemo
    · exact hsame q.memo.appended_nil

end Query

section Bind

variable {threshold : Nat} {column : String} {type : DataType} {s : Source}

mutual

theorem Table.afterBinding : ∀ {t t' : Table} {e : Expr}, t.bind threshold column type s = .ok e t' →
    t.AfterBinding s t'
  | .base .., _, _, h => by
    rw [Table.bind] at h
    cases h
    exact .base ..
  | .join kind target condition, _, _, h => by
    rw [Table.bind] at h
    obtain ⟨target', ht, rfl⟩ := mapState_ok h
    exact .join kind condition (Table.afterBinding ht)
  | .nested q, _, _, h => by
    rw [Table.bind] at h
    rcases hname : q.name with _ | name
    · rw [hname] at h
      cases h
    · simp only [hname] at h
      obtain ⟨q', hq, rfl⟩ := mapState_ok h
      rcases hb : q.bind threshold column type s with ⟨bound, q₁⟩ | ⟨err, q₁⟩
      · -- The column is bound in the nested query, which then shows it.
        simp only [hb] at hq
        obtain ⟨added, rfl⟩ := Query.expose_appends ((Query.grows_bind threshold column type s q).2 bound q₁ hb) hq
        exact .nested ((Query.afterBinding hb).append added)
      · simp only [hb] at hq
        cases hq

theorem Query.afterBinding : ∀ {q r : Query} {e : Expr}, q.bind threshold column type s = .ok e r →
    Query.AfterBinding s [] q r
  | ⟨tables, _, _, _, _, _, _, _, _, _, _, _⟩, _, _, h => by
    rw [Query.bind] at h
    rcases hb : bindFirst threshold column type s tables with ⟨bound, ts⟩ | ⟨err, ts⟩
    · simp only [hb] at h
      cases h
      exact .standIn threshold (firstAfterBinding hb)
    · simp only [hb] at h
      cases h

theorem firstAfterBinding : ∀ {ts ts' : List Table} {e : Expr}, bindFirst threshold column type s ts = .ok e ts' →
    FirstAfterBinding s ts ts'
  | [], _, _, h => by
    rw [bindFirst] at h
    cases h
  | t :: ts, _, _, h => by
    rw [bindFirst] at h
    by_cases ht : t.serves s = true
    · rw [if_pos ht] at h
      obtain ⟨t', hbind, rfl⟩ := mapState_ok h
      show FirstAfterBinding s ([] ++ t :: ts) ([] ++ t' :: ts)
      exact .intro (by simp) ht (Table.afterBinding hbind)
    · rw [if_neg ht] at h
      obtain ⟨ts', hbind, rfl⟩ := mapState_ok h
      exact (firstAfterBinding hbind).cons (by simpa using ht)

end

end Bind

namespace Query

/-- A binding fails for an empty name, else where no table satisfies the source, else where a nested
query on the way has no name, and else succeeds. On success nothing has changed but memos and slots
on the way, which have more at the end; the slots of the query itself are the same. -/
theorem resolveColumn_outcome (settings : Settings) (column : String) (type : DataType) (s : Source) (q : Query) :
    (errorOf (resolveColumn settings column type s q) =
      if column = "" then some .emptyColumnName
      else if q.tables.any (Table.serves s) = false then some (.unknownSource s)
      else if (q.wayTo s).any (·.name.isNone) = true then some .unnamedQuery
      else none) ∧
    ∀ e r, resolveColumn settings column type s q = .ok e r → AfterBinding s [] q r := by
  unfold resolveColumn
  constructor
  · by_cases hcolumn : column = ""
    · subst hcolumn
      rfl
    · have hempty : column.isEmpty = false := by simpa using hcolumn
      simp only [hempty, Bool.false_eq_true, if_false, if_neg hcolumn]
      rw [errorOf_bind]
      rcases hserves : q.tables.any (Table.serves s)
      · rw [if_pos rfl, refusal_eq]
        exact firstRefusal_of_not_serves hserves
      · rw [← serves_eq_any] at hserves
        simp only [Bool.true_eq_false, if_false]
        exact refusal_of_serves hserves
  · intro e r h
    split at h
    · cases h
    · exact afterBinding h

/-- The column comes from the first of two tables for its source, through a join and two nested queries. -/
theorem resolveColumn_outcome_joined :
    let people : Query := { tables := [.base "People" none "p" (some ⟨1⟩)], name := some "u" }
    let page : Query := { tables := [.nested people], name := some "t", starred := true, wildcardChoice := some "u" }
    let q : Query := { tables := [.base "Pets" none "e" none, .join .cross (.nested page) none,
      .base "People" none "p" (some ⟨1⟩)] }
    q.wayTo ⟨1⟩ = [page, people] ∧
      ∃ e r, resolveColumn {} "Name" .text ⟨1⟩ q = .ok e r ∧ AfterBinding ⟨1⟩ [] q r := by
  intro people page q
  obtain ⟨herror, hafter⟩ := resolveColumn_outcome {} "Name" .text ⟨1⟩ q
  obtain ⟨e, r, h⟩ := errorOf_eq_none.1 herror
  exact ⟨rfl, e, r, h, hafter e r h⟩

end Query
end QueryTree
